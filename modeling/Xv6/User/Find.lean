import Mathlib.Data.List.Induction
import Xv6.Sys.Name

/-!
# `find`

`find_file` of `user/find.c` walks a directory tree and prints the paths of the files and devices of a given name. It
opens a descriptor for each directory and never closes it, so the thirteenth directory takes the last descriptor
of the process and `stat` fails on everything that comes after it. Besides, `open` takes no path of `MAXPATH` bytes or
more, although the buffer of `find_file` has room for it, and no device with a major number that is out of range.

A call of `find_file` has its path buffer on the user stack of one page. How many nested calls there is room for depends
on the compiler; it is the parameter `frames`, and a call that does not fit kills the process. The file table of the
system has room, and nobody else changes the tree. A path that `find_file` puts together leads to the file whose name it
ends with.
-/

namespace Xv6.Find

variable {path : Path}

/-! ## The program -/

/-- The type of a file, and the major number of a device. -/
inductive Kind
  | dir
  | file
  | device (major : Int)
  deriving DecidableEq

mutual

/-- A file with all that is below it. -/
inductive Tree
  | file
  | device (major : Int)
  | dir (entries : Entries)

/-- The entries of a directory, in their order on disk. Nobody looks at what a free entry, `.` or `..` leads to. -/
inductive Entries
  | nil
  | cons (inum : Nat) (name : Name) (child : Tree) (rest : Entries)

end

/-- What is printed. -/
inductive Line
  | path (path : Path)
  | cannotStat (path : Path)
  | cannotOpen (path : Path)
  | tooLong
  deriving DecidableEq

def Line.isError : Line → Bool
  | .path _ => false
  | .cannotStat _ | .cannotOpen _ | .tooLong => true

/-- The check of `sys_open` on the file it has found. -/
def Kind.canOpen : Kind → Bool
  | .dir | .file => true
  | .device major => decide (0 ≤ major ∧ major < NDEV)

/-- `open(path, O_RDONLY)` in a process with `n` open descriptors. -/
def open_ (path : Path) (kind : Kind) (n : Nat) : Option Nat :=
  if path.length < MAXPATH then
    if kind.canOpen then
      if n < NOFILE then some (n + 1) else none
    else none
  else none

/-- `stat` of `user/ulib.c`, which closes the descriptor it has opened. -/
def stat (path : Path) (kind : Kind) (n : Nat) : Option Kind := (open_ path kind n).map fun _ => kind

/-- The loop of `to_file_name`: where the last path element begins. -/
def nameBegin (path : Path) : Nat → Nat
  | 0 => 0
  | i + 1 => if path[i]? = some SLASH then i + 1 else nameBegin path i

def toFileName (path : Path) : Path := path.drop (nameBegin path path.length)

/-- The case of a file or device. -/
def matchName (target path : Path) : List Line := if target = toFileName path then [.path path] else []

/-- The string at the start of a buffer. -/
def cstr (buf : List (BitVec 8)) : Path := buf.takeWhile (· ≠ 0)

/-- `memmove(p, de.name, DIRSIZ); p[DIRSIZ] = 0` with `p = buf + len + 1`. -/
def putName (buf : List (BitVec 8)) (len : Nat) (name : Name) : List (BitVec 8) :=
  buf.take (len + 1) ++ (List.range DIRSIZ).map name.get ++ [0]

/-- The entries that the loop goes past. -/
def skipped (inum : Nat) (name : Name) : Bool :=
  decide (inum = 0 ∨ name.str = [46] ∨ name.str = [46, 46])

/-- Size of the path buffer. -/
def BUFSIZE : Nat := 512

section

variable (frames : Nat) (target : Path)

/-- The beginning of a call, up to the switch on the type. -/
def enter (level : Nat) (path : Path) (kind : Kind) (n : Nat) (body : Kind → Option (List Line × Nat)) :
    Option (List Line × Nat) :=
  if level < frames then
    match stat path kind n with
    | none => some ([.cannotStat path], n)
    | some kind => body kind
  else none

/-- Go on with the descriptors that are open, unless the process was killed. -/
def andThen (r : Option (List Line × Nat)) (next : Nat → Option (List Line × Nat)) : Option (List Line × Nat) :=
  match r with
  | none => none
  | some (out, n) => (next n).map fun r => (out ++ r.1, r.2)

mutual

/-- What a call prints and how many descriptors are open after it. There is no result if the process is killed. -/
def findFile (level : Nat) (path : Path) : Tree → Nat → Option (List Line × Nat)
  | .file, n => enter frames level path .file n fun _ => some (matchName target path, n)
  | .device major, n => enter frames level path (.device major) n fun _ => some (matchName target path, n)
  | .dir entries, n => enter frames level path .dir n fun _ =>
    match open_ path .dir n with
    | none => some ([.cannotOpen path], n)
    | some n =>
      if path.length + 1 + DIRSIZ + 1 > BUFSIZE then some ([.tooLong], n)
      else readEntries level path.length (path ++ [SLASH]) entries n

/-- The loop over the entries of a directory. The buffer is shared by all of them. -/
def readEntries (level len : Nat) (buf : List (BitVec 8)) : Entries → Nat → Option (List Line × Nat)
  | .nil, n => some ([], n)
  | .cons inum name child rest, n =>
    if skipped inum name then readEntries level len buf rest n
    else andThen (findFile (level + 1) (cstr (putName buf len name)) child n) fun n =>
      readEntries level len (putName buf len name) rest n

end

end

/-! ## What should be printed -/

/-- A file of the tree with its path. -/
structure Node where
  level : Nat
  path : Path
  kind : Kind

mutual

/-- All files of the tree, directories before what is in them. -/
def nodes (level : Nat) (path : Path) : Tree → List Node
  | .file => [⟨level, path, .file⟩]
  | .device major => [⟨level, path, .device major⟩]
  | .dir entries => ⟨level, path, .dir⟩ :: entryNodes level path entries

def entryNodes (level : Nat) (path : Path) : Entries → List Node
  | .nil => []
  | .cons inum name child rest =>
    if skipped inum name then entryNodes level path rest
    else nodes (level + 1) (path ++ SLASH :: name.str) child ++ entryNodes level path rest

end

/-- The last element of a path. -/
def lastElem (path : Path) : Path := (path.reverse.takeWhile (· ≠ SLASH)).reverse

def Node.isDir (v : Node) : Bool := decide (v.kind = .dir)

/-- The paths of the files and devices whose last path element is `target`. -/
def found (target : Path) (vs : List Node) : List Path :=
  (vs.filter fun v => !v.isDir && decide (lastElem v.path = target)).map (·.path)

/-- The number of descriptors that are left open. -/
def dirs (vs : List Node) : Nat := vs.countP Node.isDir

/-- What a call needs when `n` descriptors are open. -/
structure Node.Fits (v : Node) (frames n : Nat) : Prop where
  level : v.level < frames
  path : v.path.length < MAXPATH
  kind : v.kind.canOpen = true
  free : n < NOFILE

instance (v : Node) (frames n : Nat) : Decidable (v.Fits frames n) :=
  decidable_of_iff (v.level < frames ∧ v.path.length < MAXPATH ∧ v.kind.canOpen = true ∧ n < NOFILE)
    ⟨fun ⟨h1, h2, h3, h4⟩ => ⟨h1, h2, h3, h4⟩, fun ⟨h1, h2, h3, h4⟩ => ⟨h1, h2, h3, h4⟩⟩

/-- Every call finds what it needs, with the descriptors still open of the directories before it. -/
def AllFit (frames : Nat) : Nat → List Node → Prop
  | _, [] => True
  | n, v :: vs => v.Fits frames n ∧ AllFit frames (n + if v.isDir then 1 else 0) vs

instance AllFit.decidable (frames : Nat) : ∀ n vs, Decidable (AllFit frames n vs)
  | _, [] => inferInstanceAs (Decidable True)
  | _, _ :: vs => @instDecidableAnd _ _ _ (AllFit.decidable frames _ vs)

/-! ## Strings -/

theorem nameBegin_le (path : Path) (i : Nat) : nameBegin path i ≤ i := by
  induction i with
  | zero => exact le_rfl
  | succ i ih =>
    rw [nameBegin]
    split_ifs
    · exact le_rfl
    · exact ih.trans i.le_succ

theorem nameBegin_append (l r : Path) {i : Nat} (hi : i ≤ l.length) : nameBegin (l ++ r) i = nameBegin l i := by
  induction i with
  | zero => rfl
  | succ i ih => rw [nameBegin, nameBegin, ih (by omega), List.getElem?_append_left (by omega)]

theorem toFileName_eq (path : Path) : toFileName path = lastElem path := by
  induction path using List.reverseRecOn with
  | nil => rfl
  | append_singleton l a ih =>
    unfold toFileName lastElem at ih ⊢
    have hlast : (l ++ [a])[l.length]? = some a := by simp
    rw [List.length_append, List.length_singleton, nameBegin, hlast, List.reverse_append, List.reverse_singleton,
      List.singleton_append, List.takeWhile_cons]
    by_cases ha : a = SLASH
    · simp [ha]
    · rw [if_neg (by simpa using ha), if_pos (by simpa using ha), nameBegin_append l [a] le_rfl,
        List.drop_append_of_le_length (nameBegin_le l _), ih, List.reverse_cons]

theorem takeWhile_map_range (n : Nat) : ∀ p : Nat → BitVec 8,
    ((List.range n).map p ++ [0]).takeWhile (· ≠ 0) = strOf p n := by
  induction n with
  | zero => intro p; simp [strOf]
  | succ n ih =>
    intro p
    have hrest := ih fun i => p (i + 1)
    rw [List.range_succ_eq_map, List.map_cons, List.map_map, List.cons_append, List.takeWhile_cons, strOf]
    by_cases h0 : p 0 = 0
    · simp [h0]
    · rw [if_pos (by simpa using h0), if_pos h0, ← hrest]
      rfl

theorem cstr_putName {buf : List (BitVec 8)} (hpath : ∀ b ∈ path, b ≠ 0)
    (hbuf : buf.take (path.length + 1) = path ++ [SLASH]) (name : Name) :
    cstr (putName buf path.length name) = path ++ SLASH :: name.str := by
  have hne : ∀ b ∈ path ++ [SLASH], decide (b ≠ 0) = true := by
    intro b hb
    rcases List.mem_append.mp hb with hb | hb
    · simpa using hpath b hb
    · rw [List.mem_singleton.mp hb]
      decide
  rw [cstr, putName, hbuf, List.append_assoc, List.takeWhile_append_of_pos hne, takeWhile_map_range, Name.str]
  simp

theorem take_putName {buf : List (BitVec 8)} (hbuf : buf.take (path.length + 1) = path ++ [SLASH]) (name : Name) :
    (putName buf path.length name).take (path.length + 1) = path ++ [SLASH] := by
  have hlen : (path ++ [SLASH]).length = path.length + 1 := by simp
  rw [putName, hbuf, List.append_assoc, List.take_append_of_le_length hlen.ge, List.take_of_length_le hlen.le]

theorem ne_zero_of_mem_child (hpath : ∀ b ∈ path, b ≠ 0) (name : Name) :
    ∀ b ∈ path ++ SLASH :: name.str, b ≠ 0 := by
  intro b hb
  rcases List.mem_append.mp hb with hb | hb
  · exact hpath b hb
  · rcases List.mem_cons.mp hb with rfl | hb
    · decide
    · exact ne_zero_of_mem_strOf DIRSIZ hb

/-! ## Calls -/

section

variable {frames n : Nat} {target : Path} {xs ys : List Node}

theorem allFit_append : AllFit frames n (xs ++ ys) ↔ AllFit frames n xs ∧ AllFit frames (n + dirs xs) ys := by
  induction xs generalizing n with
  | nil => simp [AllFit, dirs]
  | cons v xs ih =>
    have hdirs : n + dirs (v :: xs) = n + (if v.isDir = true then 1 else 0) + dirs xs := by
      simp only [dirs, List.countP_cons]
      omega
    rw [List.cons_append, AllFit, AllFit, ih, hdirs, and_assoc]

theorem found_append : found target (xs ++ ys) = found target xs ++ found target ys := by
  simp [found]

theorem dirs_append : dirs (xs ++ ys) = dirs xs + dirs ys := List.countP_append

/-- The result `r` of visiting the files `vs` with `n` open descriptors: the right paths if every call finds what it
needs, and otherwise an error message or the end of the process. -/
structure Meets (frames n : Nat) (target : Path) (vs : List Node) (r : Option (List Line × Nat)) : Prop where
  fits : AllFit frames n vs → r = some ((found target vs).map .path, n + dirs vs)
  fails : ¬ AllFit frames n vs → ∀ out m, r = some (out, m) → ∃ l ∈ out, l.isError = true

theorem Meets.nil : Meets frames n target [] (some ([], n)) :=
  ⟨fun _ => rfl, fun h => absurd trivial h⟩

theorem Meets.append {r : Option (List Line × Nat)} {next : Nat → Option (List Line × Nat)}
    (h : Meets frames n target xs r) (hnext : ∀ m, Meets frames m target ys (next m)) :
    Meets frames n target (xs ++ ys) (andThen r next) := by
  constructor
  · intro hfit
    obtain ⟨hx, hy⟩ := allFit_append.mp hfit
    rw [h.fits hx, andThen, (hnext _).fits hy, Option.map_some, found_append, List.map_append, dirs_append,
      Nat.add_assoc]
  · intro hfail out m hout
    cases r with
    | none => cases hout
    | some r =>
      obtain ⟨⟨out', m'⟩, hr, heq⟩ := Option.map_eq_some_iff.mp hout
      obtain ⟨rfl, rfl⟩ := Prod.mk.inj heq
      by_cases hx : AllFit frames n xs
      · have hy : ¬ AllFit frames (n + dirs xs) ys := fun hy => hfail (allFit_append.mpr ⟨hx, hy⟩)
        have hm := (Prod.mk.inj (Option.some.inj (h.fits hx))).2
        rw [← hm] at hy
        obtain ⟨l, hl, herr⟩ := (hnext _).fails hy _ _ hr
        exact ⟨l, List.mem_append_right _ hl, herr⟩
      · obtain ⟨l, hl, herr⟩ := h.fails hx _ _ rfl
        exact ⟨l, List.mem_append_left _ hl, herr⟩

theorem open_eq {path : Path} {kind : Kind} (hpath : path.length < MAXPATH) (hkind : kind.canOpen = true)
    (hn : n < NOFILE) : open_ path kind n = some (n + 1) := by
  rw [open_, if_pos hpath, if_pos hkind, if_pos hn]

theorem Meets.of_enter {v : Node} {body : Kind → Option (List Line × Nat)}
    (h : v.Fits frames n → Meets frames n target (v :: xs) (body v.kind)) :
    Meets frames n target (v :: xs) (enter frames v.level v.path v.kind n body) := by
  by_cases hv : v.Fits frames n
  · have := h hv
    rwa [enter, if_pos hv.level, stat, open_eq hv.path hv.kind hv.free]
  · refine ⟨fun hfit => absurd hfit.1 hv, ?_⟩
    intro _ out m hout
    unfold enter at hout
    split_ifs at hout with hlevel
    have hstat : stat v.path v.kind n = none := by
      unfold stat open_
      split_ifs with h1 h2 h3
      · exact absurd ⟨hlevel, h1, h2, h3⟩ hv
      · rfl
      · rfl
      · rfl
    rw [hstat] at hout
    obtain ⟨rfl, rfl⟩ := Prod.mk.inj (Option.some.inj hout)
    exact ⟨_, List.mem_singleton_self _, rfl⟩

theorem Meets.leaf {v : Node} (hv : v.isDir = false) :
    Meets frames n target [v] (enter frames v.level v.path v.kind n fun _ => some (matchName target v.path, n)) := by
  apply Meets.of_enter
  intro hfit
  refine ⟨?_, fun hfail => absurd ⟨hfit, trivial⟩ hfail⟩
  intro _
  have hdirs : dirs [v] = 0 := by simp [dirs, hv]
  rw [hdirs, Nat.add_zero, matchName, toFileName_eq, found]
  by_cases hname : lastElem v.path = target
  · simp [hv, hname]
  · simp [hv, hname, Ne.symm hname]

end

mutual

theorem findFile_meets (frames : Nat) (target : Path) : ∀ (t : Tree) (level : Nat) (path : Path) (n : Nat),
    (∀ b ∈ path, b ≠ 0) → Meets frames n target (nodes level path t) (findFile frames target level path t n)
  | .file, level, path, n, _ => by
    rw [nodes, findFile]
    exact Meets.leaf rfl
  | .device major, level, path, n, _ => by
    rw [nodes, findFile]
    exact Meets.leaf rfl
  | .dir entries, level, path, n, hpath => by
    rw [nodes, findFile]
    apply Meets.of_enter
    intro hfit
    have hlen : path.length < MAXPATH := hfit.path
    have hroom : ¬ path.length + 1 + DIRSIZ + 1 > BUFSIZE := by
      simp only [MAXPATH, DIRSIZ, BUFSIZE] at hlen ⊢
      omega
    simp only [open_eq hlen hfit.kind hfit.free, if_neg hroom]
    have hrest := readEntries_meets frames target entries level path (path ++ [SLASH]) (n + 1) hpath
      (List.take_of_length_le (by simp))
    constructor
    · intro hall
      have hdirs : dirs (⟨level, path, .dir⟩ :: entryNodes level path entries) =
          dirs (entryNodes level path entries) + 1 := by simp [dirs, Node.isDir]
      rw [hrest.fits hall.2, hdirs]
      simp [found, Node.isDir, Nat.add_assoc, Nat.add_comm 1]
    · intro hfail
      exact hrest.fails fun hall => hfail ⟨hfit, hall⟩

theorem readEntries_meets (frames : Nat) (target : Path) :
    ∀ (es : Entries) (level : Nat) (path : Path) (buf : List (BitVec 8)) (n : Nat), (∀ b ∈ path, b ≠ 0) →
      buf.take (path.length + 1) = path ++ [SLASH] →
      Meets frames n target (entryNodes level path es) (readEntries frames target level path.length buf es n)
  | .nil, level, path, buf, n, _, _ => by
    rw [entryNodes, readEntries]
    exact Meets.nil
  | .cons inum name child rest, level, path, buf, n, hpath, hbuf => by
    rw [entryNodes, readEntries]
    split_ifs
    · exact readEntries_meets frames target rest level path buf n hpath hbuf
    · rw [cstr_putName hpath hbuf]
      apply Meets.append
      · exact findFile_meets frames target child _ _ n (ne_zero_of_mem_child hpath name)
      · intro m
        exact readEntries_meets frames target rest level path _ m hpath (take_putName hbuf name)

end

/-! ## The whole tree -/

/-- In a process with the descriptors 0 to 2 open, `find_file` returns having printed the paths asked for and nothing
else exactly if every file of the tree can be opened when its turn comes. -/
theorem find_prints_matches_iff (frames : Nat) (target path : Path) (t : Tree) (hpath : ∀ b ∈ path, b ≠ 0) :
    (∃ n, findFile frames target 0 path t 3 = some ((found target (nodes 0 path t)).map .path, n)) ↔
      AllFit frames 3 (nodes 0 path t) := by
  have h := findFile_meets frames target t 0 path 3 hpath
  constructor
  · rintro ⟨n, hn⟩
    by_contra hfail
    obtain ⟨l, hl, herr⟩ := h.fails hfail _ _ hn
    obtain ⟨p, -, rfl⟩ := List.mem_map.mp hl
    cases herr
  · intro hfit
    exact ⟨_, h.fits hfit⟩

/-- A directory with `k` empty directories and then a file `b`. -/
def wide (k : Nat) : Tree :=
  .dir ((List.range k).foldr (fun i es => .cons 1 (.ofStr [100, BitVec.ofNat 8 (i + 65)]) (.dir .nil) es)
    (.cons 1 (.ofStr [98]) .file .nil))

/-- A file `b` below `k` directories with names of `DIRSIZ` bytes. -/
def deep : Nat → Tree
  | 0 => .dir (.cons 1 (.ofStr [98]) .file .nil)
  | k + 1 => .dir (.cons 1 (.ofStr (List.replicate DIRSIZ 100)) (deep k) .nil)

theorem find_prints_matches_iff_wide :
    ∃ n, findFile 11 [98] 0 [46] (wide 11) 3 = some ([.path [46, 47, 98]], n) := by
  have hfit : AllFit 11 3 (nodes 0 [46] (wide 11)) := by decide +kernel
  exact (find_prints_matches_iff 11 [98] [46] (wide 11) (by decide)).mpr hfit

/-- With twelve directories before it, the file is not found; nor is it when its path has 128 bytes. -/
theorem find_misses_files :
    found [98] (nodes 0 [46] (wide 12)) = [[46, 47, 98]] ∧
    findFile 11 [98] 0 [46] (wide 12) 3 = some ([.cannotStat [46, 47, 98]], 16) ∧
    (found [98] (nodes 0 [46] (deep 9))).length = 1 ∧
    ((findFile 11 [98] 0 [46] (deep 9) 3).any fun r => r.1.all Line.isError) = true := by
  decide +kernel

end Xv6.Find
