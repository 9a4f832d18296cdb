import Xv6.Lib.Extent
import Xv6.Lib.Run
import Mathlib.Logic.Function.Basic

/-!
# `malloc` and `free`

The allocator of `user/umalloc.c`: free blocks form a circular list in address order that begins at the
static header `base`, of size zero. `free` looks for the place of a block from `freep` on and merges it with
its neighbours; `malloc` takes the first block that is large enough, from its end, and asks `sbrk` for more
memory when it has gone round once.

Addresses are numbers of bytes, and the memory is seen by headers. A header that begins inside a live block
stands for bytes that the program writes. `sbrk` fails or grants memory that begins some bytes above all it
has granted before.
-/

namespace Xv6.Malloc

open Extent
open Function (update update_of_ne update_self)

structure Header where
  ptr : Nat
  size : Nat

/-- `sizeof(Header)` -/
def HEADER : Nat := 16

/-- What the allocator works on. The memory that `sbrk` has granted is recorded. -/
structure Heap where
  mem : Nat → Header
  freep : Nat
  brk : Nat
  obtained : List Extent := []

def Heap.set (h : Heap) (a : Nat) (x : Header) : Heap := { h with mem := update h.mem a x }

def Heap.setPtr (h : Heap) (a ptr : Nat) : Heap := h.set a { h.mem a with ptr := ptr }

def Heap.setSize (h : Heap) (a : Nat) (size : Nat) : Heap := h.set a { h.mem a with size := size }

/-- The loop of `free`: the block behind which `bp` belongs, from `p` on. -/
def gap (h : Heap) (bp : Nat) : Nat → Nat → Option Nat
  | 0, _ => none
  | fuel + 1, p =>
    if p < bp ∧ bp < (h.mem p).ptr then some p
    else if (h.mem p).ptr ≤ p ∧ (p < bp ∨ bp < (h.mem p).ptr) then some p
    else gap h bp fuel (h.mem p).ptr

/-- Make `next` follow `q`, or part of it if the two touch. -/
def Heap.link (h : Heap) (q next : Nat) : Heap :=
  if q + HEADER * (h.mem q).size = next then h.set q ⟨(h.mem next).ptr, ((h.mem q).size + (h.mem next).size) % 2 ^ 32⟩
  else h.setPtr q next

def free (fuel : Nat) (h : Heap) (ap : Nat) : Option Heap :=
  let bp := ap - HEADER
  (gap h bp fuel h.freep).map fun p =>
    let h := h.link bp (h.mem p).ptr
    { h.link p bp with freep := p }

def morecore (fuel : Nat) (sbrk : Option Nat) (h : Heap) (nu : Nat) : Option (Heap × Nat) :=
  let nu := if nu < 4096 then 4096 else nu
  match sbrk with
  | none => some (h, 0)
  | some skip =>
    let hp := h.brk + skip
    let h := { h.setSize hp nu with brk := hp + HEADER * nu, obtained := ⟨hp, HEADER * nu⟩ :: h.obtained }
    (free fuel h (hp + HEADER)).map fun h => (h, h.freep)

/-- The block `p` is large enough: take all of it, or its end. -/
def Heap.carve (h : Heap) (nunits : Nat) (prevp p : Nat) : Heap × Nat :=
  let size := (h.mem p).size
  if size = nunits then ({ h.setPtr prevp (h.mem p).ptr with freep := prevp }, p + HEADER)
  else
    let h := h.setSize p (size - nunits)
    let p := p + HEADER * (size - nunits)
    ({ h.setSize p nunits with freep := prevp }, p + HEADER)

/-- The loop of `malloc`. Each call of `sbrk` in it gets the answer `sbrk`. -/
def mallocLoop (sbrk : Option Nat) (nunits : Nat) : Nat → Heap → Nat → Nat → Option (Heap × Nat)
  | 0, _, _, _ => none
  | fuel + 1, h, prevp, p =>
    if nunits ≤ (h.mem p).size then some (h.carve nunits prevp p)
    else if p = h.freep then
      (morecore fuel sbrk h nunits).bind fun r =>
        if r.2 = 0 then some (r.1, 0) else mallocLoop sbrk nunits fuel r.1 r.2 (r.1.mem r.2).ptr
    else mallocLoop sbrk nunits fuel h p (h.mem p).ptr

def unitsFor (nbytes : Nat) : Nat := (nbytes + HEADER - 1) / HEADER + 1

def malloc (base : Nat) (fuel : Nat) (sbrk : Option Nat) (h : Heap) (nbytes : Nat) : Option (Heap × Nat) :=
  let h := if h.freep = 0 then { h.set base ⟨base, 0⟩ with freep := base } else h
  mallocLoop sbrk (unitsFor nbytes) fuel h h.freep (h.mem h.freep).ptr

/-- A program and its heap: the blocks, headers included, that `malloc` has returned and that have not been
freed, and what `malloc` returned last. -/
structure State where
  heap : Heap
  live : List Extent := []
  ret : Nat := 0
  /-- a loop has not ended within the bound `rounds` -/
  hung : Bool := false

inductive Event
  | malloc (nbytes : Nat) (sbrk : Option Nat)
  | free (ap : Nat)
  /-- the program writes into a live block -/
  | write (a : Nat) (x : Header)

def rounds (h : Heap) : Nat := 2 * total h.obtained + 3

def step (base : Nat) (s : State) : Event → Option State
  | .malloc nbytes sbrk =>
    if unitsFor nbytes * HEADER < 2 ^ 31 ∧ s.hung = false then
      match malloc base (rounds s.heap) sbrk s.heap nbytes with
      | none => some { s with hung := true }
      | some (h, 0) => some { s with heap := h, ret := 0 }
      | some (h, ap) => some { s with
          heap := h
          ret := ap
          live := ⟨ap - HEADER, HEADER * (h.mem (ap - HEADER)).size⟩ :: s.live }
    else none
  | .free ap =>
    match s.live.find? fun b => b.addr + HEADER = ap with
    | none => none
    | some b =>
      if s.hung = false then
        match free (rounds s.heap) s.heap ap with
        | none => some { s with hung := true }
        | some h => some { s with heap := h, live := s.live.erase b }
      else none
  | .write a x =>
    if ∃ b ∈ s.live, b.addr < a ∧ a < b.stop then some { s with heap := s.heap.set a x } else none

/-- Before the first call; the static data, with `base`, is below the memory that `sbrk` grants. -/
def boot (mem : Nat → Header) (brk : Nat) : State := { heap := { mem := mem, freep := 0, brk := brk } }

/-- All that `sbrk` grants is less than `2^32` units. -/
def Within (s : State) : Event → Prop
  | .malloc nbytes (some _) => total s.heap.obtained + HEADER * max (unitsFor nbytes) 4096 < HEADER * 2 ^ 32
  | _ => True

instance (s : State) : (e : Event) → Decidable (Within s e)
  | .malloc nbytes (some _) =>
      inferInstanceAs (Decidable (total s.heap.obtained + HEADER * max (unitsFor nbytes) 4096 < HEADER * 2 ^ 32))
  | .malloc _ none => isTrue trivial
  | .free _ => isTrue trivial
  | .write _ _ => isTrue trivial

/-! ## The free list -/

def Heap.next (h : Heap) (a : Nat) : Nat := (h.mem a).ptr

def Heap.bytes (h : Heap) (a : Nat) : Nat := HEADER * (h.mem a).size

/-- The header `base`. -/
def bottom (base : Nat) : Extent := ⟨base, 0⟩

/-- The list from `base` on, and back to it. -/
structure FreeList (base : Nat) (h : Heap) (fl : List Extent) : Prop where
  linked : Linked h.next h.bytes base (bottom base :: fl) base
  freep : ∃ b ∈ bottom base :: fl, b.addr = h.freep
  spaced : Spaced (bottom base :: fl)
  pos : ∀ b ∈ fl, 0 < b.len

variable {base x bp fuel nunits : Nat} {h h' : Heap} {A R X l fl fl' live : List Extent} {b c p : Extent}
    {sbrk : Option Nat}

theorem spaced_lt (hs : Spaced (A ++ p :: R)) : (∀ a ∈ A, a.addr < p.addr) ∧ ∀ r ∈ R, p.addr < r.addr := by
  obtain ⟨-, hpR, hA⟩ := List.pairwise_append.mp hs
  refine ⟨fun a ha => ?_, fun r hr => ?_⟩
  · have := hA a ha p List.mem_cons_self
    simp only [stop] at this
    omega
  · have := (List.pairwise_cons.mp hpR).1 r hr
    simp only [stop] at this
    omega

theorem gap_found (hl : Linked h.next h.bytes x (A ++ p :: R) base) (hs : Spaced (A ++ p :: R))
    (hA : ∀ a ∈ A, a.addr < bp)
    (hp : p.addr < bp) (hR : ∀ r ∈ R, bp < r.addr) (hbase : base < bp) (hmin : base ≤ p.addr)
    (hfuel : A.length < fuel) :
    gap h bp fuel x = some p.addr := by
  induction A generalizing x fuel with
  | nil =>
    obtain ⟨fuel, rfl⟩ := Nat.exists_eq_add_one_of_ne_zero (Nat.ne_of_gt hfuel)
    obtain ⟨rfl, -, hnext⟩ := hl
    rw [gap]
    cases R with
    | nil =>
      -- the list wraps here
      have hn : (h.mem p.addr).ptr = base := hnext
      rw [hn, if_neg (by omega), if_pos ⟨hmin, .inl hp⟩]
    | cons r R =>
      have hn : (h.mem p.addr).ptr = r.addr := hnext.1
      rw [hn, if_pos ⟨hp, hR r List.mem_cons_self⟩]
  | cons a A ih =>
    obtain ⟨fuel, rfl⟩ := Nat.exists_eq_add_one_of_ne_zero (Nat.ne_of_gt (Nat.zero_lt_of_lt hfuel))
    obtain ⟨rfl, -, hnext⟩ := hl
    have hn : a.addr < (h.mem a.addr).ptr ∧ (h.mem a.addr).ptr < bp := by
      have hlt := (spaced_lt (A := []) hs).2
      cases A with
      | nil =>
        have hn : (h.mem a.addr).ptr = p.addr := hnext.1
        exact hn ▸ ⟨hlt p List.mem_cons_self, hp⟩
      | cons c A =>
        have hn : (h.mem a.addr).ptr = c.addr := hnext.1
        exact hn ▸ ⟨hlt c List.mem_cons_self, hA c (List.mem_cons_of_mem a List.mem_cons_self)⟩
    rw [gap, if_neg (by omega), if_neg (by omega)]
    rw [List.length_cons] at hfuel
    exact ih hnext (List.pairwise_cons.mp hs).2 (fun c hc => hA c (List.mem_cons_of_mem a hc)) (by omega)

theorem gap_wrap (hl : Linked h.next h.bytes x R base) (hs : Spaced R) (hR : ∀ r ∈ R, bp < r.addr)
    (hbase : base < bp) (fuel : Nat) :
    gap h bp (R.length + fuel) x = gap h bp fuel base := by
  induction R generalizing x with
  | nil =>
    obtain rfl : x = base := hl
    rw [List.length_nil, Nat.zero_add]
  | cons r R ih =>
    obtain ⟨rfl, -, hnext⟩ := hl
    have hr := hR r List.mem_cons_self
    have hn : ¬((h.mem r.addr).ptr ≤ r.addr ∧ (r.addr < bp ∨ bp < (h.mem r.addr).ptr)) := by
      cases R with
      | nil =>
        have hn : (h.mem r.addr).ptr = base := hnext
        omega
      | cons c R =>
        have hn : (h.mem r.addr).ptr = c.addr := hnext.1
        have hlt := (spaced_lt (A := []) hs).2 c List.mem_cons_self
        omega
    rw [List.length_cons, Nat.add_right_comm, gap, if_neg (by omega), if_neg hn]
    exact ih hnext (List.pairwise_cons.mp hs).2 fun c hc => hR c (List.mem_cons_of_mem r hc)

theorem FreeList.gap_eq (hf : FreeList base h fl) (heq : bottom base :: fl = A ++ p :: R)
    (hA : ∀ a ∈ A, a.addr < bp) (hp : p.addr < bp)
    (hR : ∀ r ∈ R, bp < r.addr) (hbase : base < bp) (hfuel : fl.length < fuel) :
    gap h bp fuel h.freep = some p.addr := by
  have hlen := congrArg List.length heq
  rw [List.length_cons, List.length_append, List.length_cons] at hlen
  have hl := hf.linked
  have hs := hf.spaced
  have hmin : base ≤ p.addr := by
    cases A with
    | nil => exact congrArg addr (List.cons.inj heq).1 |>.le
    | cons a A =>
      obtain ⟨rfl, -⟩ := List.cons.inj heq
      rw [heq] at hs
      exact ((spaced_lt hs).1 _ List.mem_cons_self).le
  obtain ⟨q, hq, hfreep⟩ := hf.freep
  rw [heq] at hl hs hq
  rw [← hfreep]
  rcases List.mem_append.mp hq with hqA | hqR
  · obtain ⟨A1, A2, rfl⟩ := List.append_of_mem hqA
    rw [List.append_assoc] at hl hs
    obtain ⟨z, -, hz⟩ := linked_append.mp hl
    obtain rfl : z = q.addr := hz.1
    rw [List.length_append] at hlen
    exact gap_found hz (List.pairwise_append.mp hs).2.1 (fun a ha => hA a (List.mem_append_right A1 ha)) hp
      hR hbase hmin
      (by omega)
  · obtain ⟨z, hz, hz'⟩ := linked_append.mp hl
    obtain ⟨rfl, hsize, hnext⟩ := hz'
    rcases List.mem_cons.mp hqR with rfl | hqR
    · exact gap_found (A := []) ⟨rfl, hsize, hnext⟩ (List.pairwise_append.mp hs).2.1 (fun a ha =>
        absurd ha List.not_mem_nil) hp hR hbase
        hmin (by simp only [List.length_nil]; omega)
    · obtain ⟨R1, R2, rfl⟩ := List.append_of_mem hqR
      obtain ⟨z, -, hz⟩ := linked_append.mp hnext
      obtain rfl : z = q.addr := hz.1
      have hs2 := (List.pairwise_append.mp (List.pairwise_cons.mp (List.pairwise_append.mp hs).2.1).2).2.1
      rw [List.length_append, List.length_cons] at hlen
      obtain ⟨rest, rfl⟩ : ∃ rest, fuel = (q :: R2).length + rest :=
        ⟨fuel - (R2.length + 1), by rw [List.length_cons]; omega⟩
      rw [gap_wrap hz hs2 (fun r hr => hR r (List.mem_append_right R1 hr)) hbase]
      rw [List.length_cons] at hfuel
      exact gap_found hl hs hA hp hR hbase hmin (by omega)

theorem link_mem_of_ne {q next a : Nat} (ha : a ≠ q) : (h.link q next).mem a = h.mem a := by
  rw [Heap.link]
  split_ifs
  · exact update_of_ne ha _ _
  · exact update_of_ne ha _ _

theorem link_linked {next : Nat} (hX : Linked h.next h.bytes next X base) (hb : h.bytes b.addr = b.len)
    (hend : X = [] → b.stop ≠ base)
    (hne : ∀ c ∈ X, c.addr ≠ b.addr) (hsmall : b.len + total X < HEADER * 2 ^ 32) :
    Linked (h.link b.addr next).next (h.link b.addr next).bytes b.addr (join b X) base := by
  -- the rest of the list is not touched
  have hrest : ∀ {Y z}, (∀ c ∈ Y, c.addr ≠ b.addr) → Linked h.next h.bytes z Y base →
      Linked (h.link b.addr next).next (h.link b.addr next).bytes z Y base := fun hY hl =>
    hl.congr (fun c hc => congrArg Header.ptr (link_mem_of_ne (hY c hc)))
      fun c hc => congrArg (fun x => HEADER * x.size) (link_mem_of_ne (hY c hc))
  have hstop : b.addr + HEADER * (h.mem b.addr).size = b.stop := congrArg (b.addr + ·) hb
  have hset : ∀ z : Header, (h.set b.addr z).mem b.addr = z := fun z => update_self ..
  have happart : b.stop ≠ next → (h.link b.addr next).mem b.addr = ⟨next, (h.mem b.addr).size⟩ := by
    intro hn
    rw [Heap.link, if_neg (by rw [hstop]; exact hn), Heap.setPtr, hset]
  cases X with
  | nil =>
    obtain rfl : next = base := hX
    have hmem := happart (hend rfl)
    exact ⟨rfl, (congrArg (fun x => HEADER * x.size) hmem).trans hb, congrArg Header.ptr hmem⟩
  | cons c X =>
    obtain ⟨rfl, hc, hX'⟩ := hX
    rw [join]
    split_ifs with htouch
    · have hmem : (h.link b.addr c.addr).mem b.addr =
          ⟨(h.mem c.addr).ptr, ((h.mem b.addr).size + (h.mem c.addr).size) % 2 ^ 32⟩ := by
        rw [Heap.link, if_pos (by rw [hstop]; exact htouch), hset]
      rw [total_cons] at hsmall
      have hmod : ((h.mem b.addr).size + (h.mem c.addr).size) % 2 ^ 32 = (h.mem b.addr).size + (h.mem c.addr).size := by
        rw [Heap.bytes, HEADER] at hb hc
        rw [HEADER] at hsmall
        exact Nat.mod_eq_of_lt (by omega)
      refine ⟨rfl, ?_, ?_⟩
      · change HEADER * ((h.link b.addr c.addr).mem b.addr).size = b.len + c.len
        rw [hmem, hmod, Nat.mul_add]
        exact congrArg₂ (· + ·) hb hc
      · change Linked _ _ ((h.link b.addr c.addr).mem b.addr).ptr X base
        rw [hmem]
        exact hrest (fun d hd => hne d (List.mem_cons_of_mem c hd)) hX'
    · have hmem := happart htouch
      refine ⟨rfl, (congrArg (fun x => HEADER * x.size) hmem).trans hb, ?_⟩
      change Linked _ _ ((h.link b.addr c.addr).mem b.addr).ptr (c :: X) base
      rw [hmem]
      exact hrest hne ⟨rfl, hc, hX'⟩

/-- What `free` does to the list when it is given `b`. -/
structure Freed (base : Nat) (h : Heap) (fl : List Extent) (b : Extent) (h' : Heap) (fl' : List Extent) : Prop where
  list : FreeList base h' fl'
  same : Same fl' (b :: fl)
  big : ∃ c ∈ fl', b.len ≤ c.len
  length : fl'.length ≤ fl.length + 1
  mem : ∀ a, a ≠ b.addr → (∀ c ∈ bottom base :: fl, c.addr ≠ a) → h'.mem a = h.mem a
  brk : h'.brk = h.brk
  obtained : h'.obtained = h.obtained

theorem link_brk (h : Heap) (q next : Nat) : (h.link q next).brk = h.brk := by
  rw [Heap.link]
  split_ifs <;> rfl

theorem link_obtained (h : Heap) (q next : Nat) : (h.link q next).obtained = h.obtained := by
  rw [Heap.link]
  split_ifs <;> rfl

theorem join_bottom (heq : bottom base :: fl = A ++ p :: R) (hb : base < b.addr) (hb0 : 0 < b.len)
    (hpos : ∀ c ∈ fl, 0 < c.len) :
    ∃ fl', A ++ join p (join b R) = bottom base :: fl' ∧ (∀ c ∈ fl', 0 < c.len) ∧ (∃ c ∈ fl', b.len ≤ c.len) ∧
      fl'.length ≤ fl.length + 1 := by
  obtain ⟨d, r, hd, hda, hlen⟩ := join_head b R
  have hdm : d ∈ join b R := hd ▸ List.mem_cons_self
  cases A with
  | nil =>
    obtain ⟨rfl, rfl⟩ := List.cons.inj heq
    refine ⟨join b fl, ?_, join_pos hb0 hpos, ⟨d, hdm, hlen⟩, length_join_le b fl⟩
    rw [List.nil_append, hd, join, if_neg]
    exact hda ▸ Nat.ne_of_lt hb
  | cons a A =>
    obtain ⟨rfl, rfl⟩ := List.cons.inj heq
    obtain ⟨e, he, hde⟩ := join_covers p hdm
    refine ⟨A ++ join p (join b R), rfl, fun c hc => ?_, ⟨e, List.mem_append_right A he, hlen.trans hde⟩, ?_⟩
    · rcases List.mem_append.mp hc with hc | hc
      · exact hpos c (List.mem_append_left _ hc)
      · refine join_pos (hpos p (by simp)) (join_pos hb0 fun c hc => hpos c (by simp [hc])) c hc
    · have h1 := length_join_le b R
      have h2 := length_join_le p (join b R)
      have h3 : (A.append (p :: R)).length = A.length + (R.length + 1) := List.length_append
      rw [List.length_append, h3]
      omega

theorem free_spec (hf : FreeList base h fl) (hb : h.bytes b.addr = b.len) (hb0 : 0 < b.len) (hbase : base < b.addr)
    (hap : ∀ c ∈ fl, Apart c b) (hsmall : b.len + total fl < HEADER * 2 ^ 32) (hfuel : fl.length < fuel) :
    ∃ h' fl', free fuel h (b.addr + HEADER) = some h' ∧ Freed base h fl b h' fl' := by
  have hap' : ∀ c ∈ bottom base :: fl, Apart c b := by
    intro c hc
    rcases List.mem_cons.mp hc with rfl | hc
    · exact .inl hbase.le
    · exact hap c hc
  have hne : ∀ c ∈ fl, c.addr ≠ b.addr := by
    intro c hc heq
    have hc0 := hf.pos c hc
    rcases hap c hc with h1 | h1
    · simp only [stop] at h1
      omega
    · simp only [stop] at h1
      omega
  obtain ⟨A, p, R, heq, hA, hp, hR⟩ := hf.spaced.split hbase hne
  have hgap := hf.gap_eq heq hA hp hR hbase hfuel
  have hl := hf.linked
  have hs := hf.spaced
  rw [heq] at hl hs hap'
  obtain ⟨z, hlA, hlp⟩ := linked_append.mp hl
  obtain ⟨rfl, hpsize, hlR⟩ := hlp
  obtain ⟨hltA, hltR⟩ := spaced_lt hs
  -- below and above `b`
  have hbR : ∀ r ∈ R, b.stop ≤ r.addr := by
    intro r hr
    refine (hap' r (List.mem_append_right A (List.mem_cons_of_mem p hr))).resolve_left fun h1 => ?_
    have := hR r hr
    simp only [stop] at h1
    omega
  have hpb : p.stop ≤ b.addr := by
    refine (hap' p (List.mem_append_right A List.mem_cons_self)).resolve_right fun h1 => ?_
    simp only [stop] at h1
    omega
  have htotal : total fl = total A + (p.len + total R) := by
    have := congrArg total heq
    rwa [total_cons, bottom, Nat.zero_add, total_append, total_cons] at this
  -- the two links
  have h1 := link_linked hlR hb (fun _ hc => by simp only [stop] at hc; omega) (fun r hr => (hR r hr).ne') (by omega)
  set h₁ := h.link b.addr (h.next p.addr) with hh₁
  have hmem₁ : ∀ a, a ≠ b.addr → h₁.mem a = h.mem a := fun a ha => link_mem_of_ne ha
  have hnep : ∀ c ∈ join b R, c.addr ≠ p.addr := by
    intro c hc
    rcases mem_join hc with hc | hc
    · rw [hc]
      exact hp.ne'
    · exact (hltR c hc).ne'
  have hjoin : join b R ≠ [] := by
    obtain ⟨d, r, hd, -⟩ := join_head b R
    rw [hd]
    exact List.cons_ne_nil d r
  have h2 := link_linked h1 ((congrArg (fun x => HEADER * x.size) (hmem₁ p.addr hp.ne)).trans hpsize)
    (fun hc => absurd hc hjoin)
    hnep (by have := (same_join b R).total_eq; rw [total_cons] at this; omega)
  set h₂ := h₁.link p.addr b.addr with hh₂
  have hmem₂ : ∀ a, a ≠ b.addr → a ≠ p.addr → h₂.mem a = h.mem a := fun a hab hap =>
    (link_mem_of_ne hap).trans (hmem₁ a hab)
  have hlA' : Linked h₂.next h₂.bytes base A p.addr :=
    hlA.congr (fun a ha => congrArg Header.ptr (hmem₂ _ (hA a ha).ne (hltA a ha).ne))
      fun a ha => congrArg (fun x => HEADER * x.size) (hmem₂ _ (hA a ha).ne (hltA a ha).ne)
  have hall := linked_append.mpr ⟨p.addr, hlA', h2⟩
  obtain ⟨fl', hfl', hpos, hbig, hlength⟩ := join_bottom heq hbase hb0 hf.pos
  refine ⟨{ h₂ with freep := p.addr }, fl', ?_, ⟨?_, ?_, ?_, hpos⟩, ?_, hbig, hlength, ?_, ?_, ?_⟩
  · rw [free, Nat.add_sub_cancel, hgap]
    rfl
  · rw [← hfl']
    exact hall
  · obtain ⟨d, r, hd, hda, -⟩ := join_head p (join b R)
    refine ⟨d, ?_, hda⟩
    rw [← hfl', hd]
    exact List.mem_append_right A List.mem_cons_self
  · rw [← hfl']
    exact spaced_insert hs hpb hbR
  · have hins := same_insert A p b R
    rw [hfl', ← heq] at hins
    exact (same_empty base fl').symm.trans (hins.trans ((same_empty base fl).cons b))
  · intro a hab hne
    refine hmem₂ a hab fun hc => ?_
    exact hne p (heq ▸ List.mem_append_right A List.mem_cons_self) hc.symm
  · exact (link_brk ..).trans (link_brk ..)
  · exact (link_obtained ..).trans (link_obtained ..)

/-- What `malloc` does to the list when it takes the block `d`. -/
structure Carved (base : Nat) (h : Heap) (fl : List Extent) (nunits : Nat) (h' : Heap) (fl' : List Extent)
    (d : Extent) : Prop where
  list : FreeList base h' fl'
  same : Same (d :: fl') fl
  len : d.len = HEADER * nunits
  size : h'.bytes d.addr = d.len
  mem : ∀ a, a ≠ base → (∀ c ∈ fl, ¬(c.addr ≤ a ∧ a < c.stop)) → h'.mem a = h.mem a
  brk : h'.brk = h.brk
  obtained : h'.obtained = h.obtained

theorem FreeList.base_lt (hf : FreeList base h fl) (hc : c ∈ fl) :
    base < c.addr := (List.pairwise_cons.mp hf.spaced).1 c hc

theorem linked_of_mem_eq {y : Nat} (hl : Linked h.next h.bytes x l y) (heq : ∀ b ∈ l, h'.mem b.addr = h.mem b.addr) :
    Linked h'.next h'.bytes x l y :=
  hl.congr (fun b hb => congrArg Header.ptr (heq b hb)) fun b hb => congrArg (fun x => HEADER * x.size) (heq b hb)

theorem carve_whole {P : List Extent} (hf : FreeList base h fl) (heq : bottom base :: fl = A ++ b :: c :: R)
    (hP : A ++ [b] = bottom base :: P) (hfl : fl = P ++ c :: R) (hsize : (h.mem c.addr).size = nunits) :
    Carved base h fl nunits { h.setPtr b.addr (h.mem c.addr).ptr with freep := b.addr } (P ++ R) c := by
  have hl := hf.linked
  have hs := hf.spaced
  rw [heq] at hl hs
  obtain ⟨z, hlA, rfl, hbsize, hlc, hcsize, hlR⟩ := linked_append.mp hl
  obtain ⟨hltA, hltR⟩ := spaced_lt hs
  have hfl' : bottom base :: (P ++ R) = A ++ b :: R := by
    rw [← List.cons_append, ← hP, List.append_assoc, List.singleton_append]
  set h' : Heap := { h.setPtr b.addr (h.mem c.addr).ptr with freep := b.addr } with hh'
  have hmem : ∀ a, a ≠ b.addr → h'.mem a = h.mem a := fun a ha => update_of_ne ha _ _
  have hself : h'.mem b.addr = ⟨(h.mem c.addr).ptr, (h.mem b.addr).size⟩ := update_self ..
  have hbmem : b ∈ bottom base :: fl := heq ▸ List.mem_append_right A List.mem_cons_self
  refine ⟨⟨?_, ⟨b, ?_, rfl⟩, ?_, fun a ha => hf.pos a ?_⟩, ?_, ?_, ?_, ?_, rfl, rfl⟩
  · rw [hfl']
    refine linked_append.mpr ⟨b.addr, linked_of_mem_eq hlA fun a ha => hmem _ (hltA a ha).ne, rfl, ?_, ?_⟩
    · exact (congrArg (fun x => HEADER * x.size) hself).trans hbsize
    · have hnext : h'.next b.addr = h.next c.addr := by rw [Heap.next, hself, Heap.next]
      rw [hnext]
      exact linked_of_mem_eq hlR fun r hr => hmem _ (hltR r (List.mem_cons_of_mem c hr)).ne'
  · rw [hfl']
    exact List.mem_append_right A List.mem_cons_self
  · rw [hfl']
    exact List.Pairwise.sublist (List.Sublist.append_left ((List.sublist_cons_self c R).cons_cons b) A) hs
  · rw [hfl]
    exact (List.mem_append.mp ha).elim (List.mem_append_left _) fun h =>
      List.mem_append_right P (List.mem_cons_of_mem c h)
  · rw [hfl]
    exact same_of_perm List.perm_middle.symm
  · rw [← hcsize, Heap.bytes, hsize]
  · rw [← hcsize]
    exact congrArg (fun x => HEADER * x.size) (hmem _ (hltR c List.mem_cons_self).ne')
  · intro a ha hnot
    refine hmem a fun hab => ?_
    rcases List.mem_cons.mp hbmem with rfl | hb
    · exact ha hab
    · have := hf.pos b hb
      exact hnot b hb ⟨hab.ge, by rw [hab, stop]; omega⟩

theorem carve_end {P : List Extent} (hf : FreeList base h fl) (hP : A ++ [b] = bottom base :: P)
    (hfl : fl = P ++ c :: R) (hn0 : 0 < nunits) (hsize : nunits < (h.mem c.addr).size) :
    ∃ h' d, h.carve nunits b.addr c.addr = (h', d.addr + HEADER) ∧
      Carved base h fl nunits h' (P ++ ⟨c.addr, HEADER * ((h.mem c.addr).size - nunits)⟩ :: R) d := by
  have hl := hf.linked
  have hs := hf.spaced
  have hfl' : bottom base :: fl = (A ++ [b]) ++ c :: R := by rw [hP, hfl, List.cons_append]
  rw [hfl'] at hl hs
  obtain ⟨z, hlB, rfl, hcsize, hlR⟩ := linked_append.mp hl
  obtain ⟨hltB, -⟩ := spaced_lt hs
  have hcR := (List.pairwise_cons.mp (List.pairwise_append.mp hs).2.1).1
  have hcfl : c ∈ fl := hfl ▸ List.mem_append_right P List.mem_cons_self
  set rest := (h.mem c.addr).size - nunits with hrest
  set d : Extent := ⟨c.addr + HEADER * rest, HEADER * nunits⟩ with hd
  have hclen : c.len = HEADER * rest + HEADER * nunits := by
    rw [← hcsize, Heap.bytes, ← Nat.mul_add, hrest, Nat.sub_add_cancel hsize.le]
  have hrest0 : 0 < HEADER * rest := Nat.mul_pos (by decide) (by omega)
  have hn0' : 0 < HEADER * nunits := Nat.mul_pos (by decide) hn0
  set h' : Heap := { (h.setSize c.addr rest).setSize d.addr nunits with freep := b.addr } with hh'
  have hmem : ∀ a, a ≠ c.addr → a ≠ d.addr → h'.mem a = h.mem a := fun a hac had =>
    (update_of_ne had _ _).trans (update_of_ne hac _ _)
  have hdc : c.addr ≠ d.addr := by
    simp only [hd]
    omega
  have hcmem : h'.mem c.addr = ⟨(h.mem c.addr).ptr, rest⟩ := (update_of_ne hdc _ _).trans (update_self ..)
  refine ⟨h', d, ?_, ⟨?_, ⟨b, ?_, rfl⟩, ?_, ?_⟩, ?_, rfl, ?_, ?_, rfl, rfl⟩
  · rw [Heap.carve, if_neg hsize.ne']
  · rw [← List.cons_append, ← hP]
    refine linked_append.mpr ⟨c.addr, linked_of_mem_eq hlB fun a ha => hmem _ (hltB a ha).ne ?_, rfl, ?_, ?_⟩
    · have := hltB a ha
      simp only [hd]
      omega
    · exact congrArg (fun x => HEADER * x.size) hcmem
    · change Linked h'.next h'.bytes (h'.mem c.addr).ptr R base
      rw [hcmem]
      refine linked_of_mem_eq hlR fun r hr => ?_
      have := hcR r hr
      rw [stop] at this
      refine hmem _ (by omega) ?_
      simp only [hd]
      omega
  · rw [← List.cons_append, ← hP]
    exact List.mem_append_left _ (List.mem_append_right A List.mem_cons_self)
  · rw [← List.cons_append, ← hP]
    refine hs.shrink rfl ?_
    simp only [stop]
    omega
  · intro a ha
    rcases List.mem_append.mp ha with ha | ha
    · exact hf.pos a (hfl ▸ List.mem_append_left _ ha)
    · rcases List.mem_cons.mp ha with rfl | ha
      · exact hrest0
      · exact hf.pos a (hfl ▸ List.mem_append_right P (List.mem_cons_of_mem c ha))
  · have hcut := same_cut c.addr (HEADER * rest) (HEADER * nunits) R
    rw [← hclen] at hcut
    rw [hfl]
    refine Same.trans (same_of_perm ?_) ((Same.refl P).append hcut.symm)
    exact List.perm_middle.symm.trans ((List.Perm.swap _ _ R).append_left P)
  · have hdmem : h'.mem d.addr = ⟨((h.setSize c.addr rest).mem d.addr).ptr, nunits⟩ := update_self ..
    rw [Heap.bytes, hdmem]
  · intro a _ hnot
    have hnc := hnot c hcfl
    rw [stop, hclen] at hnc
    exact hmem a (by omega) (by simp only [hd]; omega)

theorem carve_spec (hf : FreeList base h fl) (hb : b ∈ bottom base :: fl) (hcfl : c ∈ fl)
    (hnext : h.next b.addr = c.addr)
    (hn0 : 0 < nunits) (hn : nunits ≤ (h.mem c.addr).size) :
    ∃ h' fl' d, h.carve nunits b.addr c.addr = (h', d.addr + HEADER) ∧ Carved base h fl nunits h' fl' d := by
  have hne : h.next b.addr ≠ base := hnext ▸ (hf.base_lt hcfl).ne'
  obtain ⟨A, c', R, heq, hc'⟩ := hf.linked.next_split hb hne
  rw [hnext] at hc'
  rw [← hc'] at hn ⊢
  obtain ⟨P, hP⟩ : ∃ P, A ++ [b] = bottom base :: P := by
    cases A with
    | nil => exact ⟨[], by rw [(List.cons.inj heq).1]; rfl⟩
    | cons a A => exact ⟨A ++ [b], by rw [(List.cons.inj heq).1]; rfl⟩
  have hfl : fl = P ++ c' :: R := by
    have : bottom base :: fl = bottom base ::
      (P ++ c' :: R) := by rw [heq, ← List.cons_append, ← hP, List.append_assoc]; rfl
    exact (List.cons.inj this).2
  rcases Nat.eq_or_lt_of_le hn with hsize | hsize
  · exact ⟨_, P ++ R, c', by rw [Heap.carve, if_pos hsize.symm], carve_whole hf heq hP hfl hsize.symm⟩
  · obtain ⟨h', d, hcarve, hd⟩ := carve_end hf hP hfl hn0 hsize
    exact ⟨h', _, d, hcarve, hd⟩

theorem FreeList.round (hf : FreeList base h fl) :
    ∃ V f, f.addr = h.freep ∧ Linked h.next h.bytes (h.next h.freep) (V ++ [f]) (h.next h.freep) ∧
    (∀ v ∈ V, v.addr ≠ h.freep) ∧ (V ++ [f]).Perm (bottom base :: fl) := by
  obtain ⟨f, hfm, hfreep⟩ := hf.freep
  obtain ⟨A, R, heq⟩ := List.append_of_mem hfm
  have hl := hf.linked
  have hs := hf.spaced
  rw [heq] at hl hs
  obtain ⟨z, hlA, rfl, hfsize, hlR⟩ := linked_append.mp hl
  obtain ⟨hltA, hltR⟩ := spaced_lt hs
  rw [← hfreep]
  refine ⟨R ++ A, f, rfl, ?_, fun v hv => ?_, ?_⟩
  · exact linked_append.mpr ⟨f.addr, linked_append.mpr ⟨base, hlR, hlA⟩, rfl, hfsize, rfl⟩
  · exact (List.mem_append.mp hv).elim (fun h => (hltR v h).ne') fun h => (hltA v h).ne
  · rw [heq, List.append_assoc]
    exact List.perm_append_comm.trans (by rw [List.append_assoc]; rfl)

theorem mallocLoop_scan (sbrk : Option Nat) (nunits : Nat) {V : List Extent} {f q : Extent} {e : Nat}
    (hl : Linked h.next h.bytes x (V ++ [f]) e) (hf : f.addr = h.freep)
    (hV : ∀ v ∈ V, v.addr ≠ h.freep) (hsub : ∀ v ∈ V ++ [f], v ∈ l) (hq : q ∈ l) (hnext : h.next q.addr = x)
    (hfuel : V.length < fuel) :
    (∃ b ∈ l, ∃ c ∈ l, h.next b.addr = c.addr ∧ nunits ≤ (h.mem c.addr).size ∧
      mallocLoop sbrk nunits fuel h q.addr x = some (h.carve nunits b.addr c.addr)) ∨
    ((∀ v ∈ V ++ [f], (h.mem v.addr).size < nunits) ∧ mallocLoop sbrk nunits fuel h q.addr x =
      (morecore (fuel - V.length - 1) sbrk h nunits).bind fun r =>
        if r.2 = 0 then some (r.1, 0) else mallocLoop sbrk nunits (fuel - V.length - 1) r.1 r.2 (r.1.mem r.2).ptr) := by
  induction V generalizing x q fuel with
  | nil =>
    obtain ⟨fuel, rfl⟩ := Nat.exists_eq_add_one_of_ne_zero (Nat.ne_of_gt hfuel)
    obtain ⟨rfl, -, -⟩ := hl
    by_cases hn : nunits ≤ (h.mem f.addr).size
    · exact .inl ⟨q, hq, f, hsub f List.mem_cons_self, hnext, hn, by rw [mallocLoop, if_pos hn]⟩
    · refine .inr ⟨fun v hv => ?_, by rw [mallocLoop, if_neg hn, if_pos hf]; rfl⟩
      rw [List.mem_singleton.mp hv]
      exact Nat.lt_of_not_le hn
  | cons v V ih =>
    obtain ⟨fuel, rfl⟩ := Nat.exists_eq_add_one_of_ne_zero (Nat.ne_of_gt (Nat.zero_lt_of_lt hfuel))
    obtain ⟨rfl, -, hl'⟩ := hl
    have hv : v ∈ l := hsub v List.mem_cons_self
    by_cases hn : nunits ≤ (h.mem v.addr).size
    · exact .inl ⟨q, hq, v, hv, hnext, hn, by rw [mallocLoop, if_pos hn]⟩
    · have hstep : mallocLoop sbrk nunits (fuel + 1) h q.addr v.addr = mallocLoop sbrk nunits fuel h v.addr
        (h.next v.addr) := by
        rw [mallocLoop, if_neg hn, if_neg (hV v List.mem_cons_self)]
        rfl
      rw [List.length_cons] at hfuel
      have hrest : fuel + 1 - (v :: V).length - 1 = fuel - V.length - 1 := by
        rw [List.length_cons]
        omega
      rw [hstep, hrest]
      refine (ih hl' (fun w hw => hV w (List.mem_cons_of_mem v hw)) (fun w hw =>
        hsub w (List.mem_cons_of_mem v hw)) hv rfl
        (by omega)).imp_right fun hsmall => ⟨fun w hw => ?_, hsmall.2⟩
      rcases List.mem_cons.mp hw with rfl | hw
      · exact Nat.lt_of_not_le hn
      · exact hsmall.1 w hw

theorem FreeList.search (hf : FreeList base h fl) (sbrk : Option Nat) (hn : 0 < nunits) (hfuel : fl.length < fuel) :
    (∃ c ∈ fl, HEADER * nunits ≤ c.len) ∧ (∃ h' fl' d,
      mallocLoop sbrk nunits fuel h h.freep (h.next h.freep) = some (h', d.addr + HEADER) ∧
      Carved base h fl nunits h' fl' d) ∨
    (∀ v ∈ fl, v.len < HEADER * nunits) ∧ mallocLoop sbrk nunits fuel h h.freep (h.next h.freep) =
      (morecore (fuel - fl.length - 1) sbrk h nunits).bind fun r =>
        if r.2 = 0 then some (r.1, 0) else mallocLoop sbrk nunits (fuel - fl.length - 1) r.1 r.2 (r.1.mem r.2).ptr := by
  obtain ⟨V, f, hfreep, hl, hV, hperm⟩ := hf.round
  have hlen : V.length = fl.length := by
    have := hperm.length_eq
    rw [List.length_append, List.length_singleton, List.length_cons] at this
    omega
  have hscan := mallocLoop_scan sbrk nunits hl hfreep hV (fun v hv => hperm.mem_iff.mp hv)
    (hperm.mem_iff.mp (List.mem_append_right V List.mem_cons_self)) (congrArg h.next hfreep) (hlen ▸ hfuel)
  rw [hfreep, hlen] at hscan
  rcases hscan with ⟨b, hb, c, hc, hnext, hle, heq⟩ | ⟨hnone, heq⟩
  · have hclen : HEADER * nunits ≤ c.len := hf.linked.size_eq hc ▸ Nat.mul_le_mul_left HEADER hle
    have hcfl : c ∈ fl := by
      refine (List.mem_cons.mp hc).resolve_left fun hcb => ?_
      have hpos := (Nat.mul_pos (by decide) hn).trans_le hclen
      rw [hcb] at hpos
      exact absurd hpos (Nat.lt_irrefl 0)
    obtain ⟨h', fl', d, hcarve, hcarved⟩ := carve_spec hf hb hcfl hnext hn hle
    exact .inl ⟨⟨c, hcfl, hclen⟩, h', fl', d, by rw [heq, hcarve], hcarved⟩
  · refine .inr ⟨fun v hv => ?_, heq⟩
    rw [← hf.linked.size_eq (List.mem_cons_of_mem _ hv)]
    exact Nat.mul_lt_mul_of_pos_left (hnone v (hperm.mem_iff.mpr (List.mem_cons_of_mem _ hv))) (by decide)

/-! ## The whole heap -/

/-- The free and the live blocks together are the memory that `sbrk` has granted. -/
structure Inv (base : Nat) (h : Heap) (live fl : List Extent) : Prop where
  list : FreeList base h fl
  size : ∀ b ∈ live, h.bytes b.addr = b.len
  pos : ∀ b ∈ live, 0 < b.len
  tile : Same (fl ++ live) h.obtained
  once : ∀ x, count x h.obtained ≤ 1
  obtained : ∀ r ∈ h.obtained, base + HEADER ≤ r.addr ∧ r.stop ≤ h.brk
  brk : base + HEADER ≤ h.brk

section

variable (hi : Inv base h live fl)

include hi

theorem Inv.pos_all : ∀ b ∈ fl ++ live, 0 < b.len := fun b hb =>
  (List.mem_append.mp hb).elim (hi.list.pos b) (hi.pos b)

theorem Inv.apart : (fl ++ live).Pairwise Apart := by
  refine pairwise_apart (fun x => ?_) hi.pos_all
  rw [hi.tile.count_eq]
  exact hi.once x

theorem Inv.inside (hb : b ∈ fl ++ live) : base + HEADER ≤ b.addr ∧ b.stop ≤ h.brk := by
  have hpos := hi.pos_all b hb
  have hin : ∀ x, b.addr ≤ x → x < b.stop → base + HEADER ≤ x ∧ x < h.brk := by
    intro x h1 h2
    have hx := holds_mem hb h1 h2
    rw [hi.tile.count_eq] at hx
    obtain ⟨r, hr, h3, h4⟩ := count_pos.mp hx
    obtain ⟨h5, h6⟩ := hi.obtained r hr
    omega
  have h1 := hin b.addr le_rfl (by rw [stop]; omega)
  have h2 := hin (b.stop - 1) (by rw [stop]; omega) (by rw [stop]; omega)
  rw [stop] at h2 ⊢
  omega

theorem Inv.apart_live (hc : c ∈ fl) (hb : b ∈ live) : Apart c b :=
  (List.pairwise_append.mp hi.apart).2.2 c hc b hb

theorem Inv.perm {live' : List Extent} (hp : live.Perm live') : Inv base h live' fl where
  list := hi.list
  size b hb := hi.size b (hp.mem_iff.mpr hb)
  pos b hb := hi.pos b (hp.mem_iff.mpr hb)
  tile := (same_of_perm (hp.symm.append_left fl)).trans hi.tile
  once := hi.once
  obtained := hi.obtained
  brk := hi.brk

theorem Inv.carved {d : Extent} (hn : 0 < nunits) (hc : Carved base h fl nunits h' fl' d) :
    Inv base h' (d :: live) fl' where
  list := hc.list
  size b hb := by
    rcases List.mem_cons.mp hb with rfl | hb
    · exact hc.size
    · have hmem : h'.mem b.addr = h.mem b.addr := by
        refine hc.mem b.addr ?_ fun c hcf hin => ?_
        · have := (hi.inside (List.mem_append_right fl hb)).1
          rw [HEADER] at this
          omega
        · have hb0 := hi.pos b hb
          rcases hi.apart_live hcf hb with h1 | h1
          · omega
          · rw [stop] at h1
            omega
      rw [Heap.bytes, hmem]
      exact hi.size b hb
  pos b hb := by
    rcases List.mem_cons.mp hb with rfl | hb
    · rw [hc.len]
      exact Nat.mul_pos (by decide) hn
    · exact hi.pos b hb
  tile := by
    rw [hc.obtained]
    exact ((same_of_perm List.perm_middle).trans (hc.same.append (Same.refl live))).trans hi.tile
  once := hc.obtained ▸ hi.once
  obtained := by
    rw [hc.obtained, hc.brk]
    exact hi.obtained
  brk := hc.brk ▸ hi.brk

end

theorem Inv.of_freed (hf : Freed base h fl b h' fl') (hsize : ∀ c ∈ live, h.bytes c.addr = c.len)
    (hpos : ∀ c ∈ live, 0 < c.len) (hne : ∀ c ∈ live, c.addr ≠ b.addr)
    (hfl : ∀ c ∈ live, ∀ a ∈ bottom base :: fl, a.addr ≠ c.addr)
    (htile : Same (fl ++ b :: live) h.obtained) (honce : ∀ x, count x h.obtained ≤ 1)
    (hobt : ∀ r ∈ h.obtained, base + HEADER ≤ r.addr ∧ r.stop ≤ h.brk) (hbrk : base + HEADER ≤ h.brk) :
    Inv base h' live fl' where
  list := hf.list
  size c hc := by
    rw [Heap.bytes, hf.mem c.addr (hne c hc) (hfl c hc)]
    exact hsize c hc
  pos := hpos
  tile := by
    rw [hf.obtained]
    exact (hf.same.append (Same.refl live)).trans ((same_of_perm List.perm_middle.symm).trans htile)
  once := hf.obtained ▸ honce
  obtained := by
    rw [hf.obtained, hf.brk]
    exact hobt
  brk := hf.brk ▸ hbrk

theorem Inv.addr_ne (hi : Inv base h live fl) (hb : b ∈ live) : ∀ a ∈ bottom base :: fl, a.addr ≠ b.addr := by
  intro a ha
  have hb0 := hi.pos b hb
  have hbase := (hi.inside (List.mem_append_right fl hb)).1
  rcases List.mem_cons.mp ha with rfl | ha
  · rw [HEADER] at hbase
    exact (by omega : base ≠ b.addr)
  · have ha0 := hi.list.pos a ha
    have := hi.apart_live ha hb
    simp only [Apart, stop] at this
    omega

theorem Inv.length_le (hi : Inv base h live fl) : fl.length ≤ total h.obtained := by
  have h1 := length_le_total hi.list.pos
  have h2 := hi.tile.total_eq
  rw [total_append] at h2
  omega

theorem Inv.free (hi : Inv base h (b :: live) fl) (fuel : Nat) (hsmall : total h.obtained < HEADER * 2 ^ 32)
    (hfuel : fl.length < fuel) :
    ∃ h' fl', free fuel h (b.addr + HEADER) = some h' ∧ Inv base h' live fl' ∧ h'.obtained = h.obtained := by
  have hb : b ∈ b :: live := List.mem_cons_self
  have htotal := hi.tile.total_eq
  rw [total_append, total_cons] at htotal
  have hbase := (hi.inside (List.mem_append_right fl hb)).1
  obtain ⟨h', fl', heq, hfreed⟩ := free_spec hi.list (hi.size b hb) (hi.pos b hb) (by rw [HEADER] at hbase; omega)
    (fun c hc => hi.apart_live hc hb) (by omega) hfuel
  refine ⟨h', fl', heq, ?_, hfreed.obtained⟩
  have hlive := (List.pairwise_cons.mp (List.pairwise_append.mp hi.apart).2.1).1
  refine Inv.of_freed hfreed (fun c hc => hi.size c (List.mem_cons_of_mem b hc))
    (fun c hc => hi.pos c (List.mem_cons_of_mem b hc)) (fun c hc hcb => ?_)
    (fun c hc => hi.addr_ne (List.mem_cons_of_mem b hc))
    hi.tile hi.once hi.obtained hi.brk
  have hb0 := hi.pos b hb
  have hc0 := hi.pos c (List.mem_cons_of_mem b hc)
  have := hlive c hc
  simp only [Apart, stop] at this
  omega

theorem Inv.morecore (hi : Inv base h live fl) (skip fuel : Nat)
    (hsmall : total h.obtained + HEADER * max nunits 4096 < HEADER * 2 ^ 32)
    (hfuel : fl.length < fuel) : ∃ h' fl', morecore fuel (some skip) h nunits = some (h', h'.freep) ∧
    Inv base h' live fl' ∧
      (∃ c ∈ fl', HEADER * nunits ≤ c.len) ∧ fl'.length ≤ fl.length + 1 ∧ total h'.obtained < HEADER * 2 ^ 32 := by
  have hnu : (if nunits < 4096 then 4096 else nunits) = max nunits 4096 := by
    split_ifs <;> omega
  set nu := max nunits 4096 with hnu'
  have hnu0 : 0 < HEADER * nu := Nat.mul_pos (by decide) (by omega)
  set b : Extent := ⟨h.brk + skip, HEADER * nu⟩ with hb
  set h₁ : Heap := { h.setSize b.addr nu with brk := b.addr + HEADER * nu, obtained := b :: h.obtained } with hh₁
  have hbrk := hi.brk
  have hmem : ∀ a, a < h.brk → h₁.mem a = h.mem a := fun a ha =>
    update_of_ne (by simp only [hb]; omega) _ _
  have hlt : ∀ c ∈ bottom base :: (fl ++ live), c.stop ≤ h.brk ∧ c.addr < h.brk := by
    intro c hc
    rcases List.mem_cons.mp hc with rfl | hc
    · rw [HEADER] at hbrk
      exact ⟨(by omega : base ≤ h.brk), (by omega : base < h.brk)⟩
    · have h1 := (hi.inside hc).2
      have h2 := hi.pos_all c hc
      rw [stop] at h1 ⊢
      omega
  have hlt' : ∀ c ∈ bottom base :: fl, c.addr < h.brk := fun c hc =>
    (hlt c (List.cons_subset_cons _ (List.subset_append_left fl live) hc)).2
  have hf₁ : FreeList base h₁ fl :=
    ⟨linked_of_mem_eq hi.list.linked fun c hc => hmem _ (hlt' c hc), hi.list.freep, hi.list.spaced, hi.list.pos⟩
  have hbmem : h₁.mem b.addr = ⟨(h.mem b.addr).ptr, nu⟩ := update_self ..
  have htotal := hi.tile.total_eq
  rw [total_append] at htotal
  obtain ⟨h', fl', heq, hfreed⟩ := free_spec hf₁ (by rw [Heap.bytes, hbmem]) hnu0
    (by simp only [hb]; rw [HEADER] at hbrk; omega)
    (fun c hc => .inl ((hlt c (List.mem_cons_of_mem _ (List.mem_append_left live hc))).1.trans (Nat.le_add_right _ _)))
    (by simp only [hb]; omega) hfuel
  have hlive : ∀ c ∈ live, c.addr < h.brk := fun c hc =>
    (hlt c (List.mem_cons_of_mem _ (List.mem_append_right fl hc))).2
  refine ⟨h', fl', ?_, ?_, ?_, hfreed.length, ?_⟩
  · rw [Malloc.morecore]
    simp only [hnu]
    change (Malloc.free fuel h₁ (b.addr + HEADER)).map _ = _
    rw [heq]
    rfl
  · refine Inv.of_freed hfreed (fun c hc => ?_) hi.pos (fun c hc => ?_) (fun c hc => hi.addr_ne hc) ?_ (fun x => ?_)
      (fun r hr => ?_) ?_
    · rw [Heap.bytes, hmem _ (hlive c hc)]
      exact hi.size c hc
    · have := hlive c hc
      simp only [hb]
      omega
    · exact (same_of_perm List.perm_middle).trans (hi.tile.cons b)
    · -- the new memory is above the old
      rw [show h₁.obtained = b :: h.obtained from rfl, count_cons, holds]
      have hx := hi.once x
      split_ifs with hin
      · have h0 : ¬0 < count x h.obtained := by
          intro hpos
          obtain ⟨r, hr, -, h2⟩ := count_pos.mp hpos
          have := (hi.obtained r hr).2
          simp only [hb] at hin
          omega
        omega
      · omega
    · rcases List.mem_cons.mp hr with rfl | hr
      · exact ⟨(by simp only [hb]; omega), le_rfl⟩
      · obtain ⟨h1, h2⟩ := hi.obtained r hr
        exact ⟨h1, h2.trans ((Nat.le_add_right _ _).trans (Nat.le_add_right _ _))⟩
    · exact hbrk.trans ((Nat.le_add_right _ _).trans (Nat.le_add_right _ _))
  · obtain ⟨c, hc, hlen⟩ := hfreed.big
    refine ⟨c, hc, le_trans (Nat.mul_le_mul_left HEADER ?_) hlen⟩
    omega
  · rw [hfreed.obtained]
    exact lt_of_eq_of_lt (total_cons b h.obtained) (by simp only [hb]; omega)

theorem Inv.freep_pos (hi : Inv base h live fl) (hbase : 0 < base) : h.freep ≠ 0 := by
  obtain ⟨b, hb, hfreep⟩ := hi.list.freep
  rw [← hfreep]
  rcases List.mem_cons.mp hb with rfl | hb
  · exact hbase.ne'
  · have := hi.list.base_lt hb
    omega

theorem Inv.mallocLoop (hi : Inv base h live fl) (nunits fuel : Nat) (hbase : 0 < base) (hn : 0 < nunits)
    (hlim : total h.obtained < HEADER * 2 ^ 32)
    (hsmall : sbrk ≠ none → total h.obtained + HEADER * max nunits 4096 < HEADER * 2 ^ 32)
    (hfuel : 2 * fl.length + 3 ≤ fuel) :
    mallocLoop sbrk nunits fuel h h.freep (h.next h.freep) = some (h, 0) ∨
      ∃ h' fl' d, mallocLoop sbrk nunits fuel h h.freep (h.next h.freep) = some (h', d.addr + HEADER) ∧
        Inv base h' (d :: live) fl' ∧ d.len = HEADER * nunits ∧ total h'.obtained < HEADER * 2 ^ 32 := by
  have hfound : ∀ {h₁ fl₁ fuel₁}, Inv base h₁ live fl₁ → total h₁.obtained < HEADER * 2 ^ 32 →
      (∃ h' fl' d, Malloc.mallocLoop sbrk nunits fuel₁ h₁ h₁.freep (h₁.next h₁.freep) = some (h', d.addr + HEADER) ∧
        Carved base h₁ fl₁ nunits h' fl' d) →
      ∃ h' fl' d, Malloc.mallocLoop sbrk nunits fuel₁ h₁ h₁.freep (h₁.next h₁.freep) = some (h', d.addr + HEADER) ∧
        Inv base h' (d :: live) fl' ∧ d.len = HEADER * nunits ∧ total h'.obtained < HEADER * 2 ^ 32 := by
    rintro h₁ fl₁ fuel₁ hi₁ hlim₁ ⟨h', fl', d, heq, hcarved⟩
    exact ⟨h', fl', d, heq, hi₁.carved hn hcarved, hcarved.len, hcarved.obtained ▸ hlim₁⟩
  rcases hi.list.search sbrk hn (show fl.length < fuel by omega) with ⟨-, hcarve⟩ | ⟨-, heq⟩
  · exact .inr (hfound hi hlim hcarve)
  · cases sbrk with
    | none => exact .inl heq
    | some skip =>
      obtain ⟨h₁, fl₁, hmore, hi₁, ⟨c, hc, hclen⟩, hlen, hlim₁⟩ := hi.morecore skip (fuel - fl.length - 1)
        (hsmall (Option.some_ne_none skip)) (by omega)
      rw [heq, hmore, Option.bind_some, if_neg (hi₁.freep_pos hbase)]
      -- the second search passes the new block
      rcases hi₁.list.search (some skip) hn (show fl₁.length < fuel - fl.length - 1 by omega) with ⟨-,
        hcarve⟩ | ⟨hnone, -⟩
      · exact .inr (hfound hi₁ hlim₁ hcarve)
      · exact absurd (hnone c hc) (Nat.not_lt.mpr hclen)

/-! ## Runs -/

/-- The state before the first `malloc`, or a heap as it should be. -/
structure Good (base : Nat) (s : State) : Prop where
  ends : s.hung = false
  limit : total s.heap.obtained < HEADER * 2 ^ 32
  heap : (s.heap.freep = 0 ∧ s.heap.obtained = [] ∧ s.live = [] ∧ base + HEADER ≤ s.heap.brk) ∨ ∃ fl,
    Inv base s.heap s.live fl

variable {s s' : State} {e : Event} {nbytes : Nat}

theorem good_boot {mem : Nat → Header} {brk : Nat} (hbrk : base + HEADER ≤ brk) : Good base (boot mem brk) :=
  ⟨rfl, (by decide : 0 < HEADER * 2 ^ 32), .inl ⟨rfl, rfl, rfl, hbrk⟩⟩

theorem inv_first (hbrk : base + HEADER ≤ h.brk) (hobt : h.obtained = []) :
    Inv base { h.set base ⟨base, 0⟩ with freep := base } [] [] := by
  have hmem : (h.set base ⟨base, 0⟩).mem base = ⟨base, 0⟩ := update_self ..
  refine ⟨⟨⟨rfl, ?_, congrArg Header.ptr hmem⟩, ⟨_, List.mem_cons_self, rfl⟩, List.pairwise_singleton _ _,
    fun b hb => absurd hb List.not_mem_nil⟩, fun b hb => absurd hb List.not_mem_nil, fun b hb =>
    absurd hb List.not_mem_nil, ?_,
    fun x => ?_, fun r hr => ?_, hbrk⟩
  · exact congrArg (fun x => HEADER * x.size) hmem
  · change Same [] h.obtained
    rw [hobt]
    exact Same.refl []
  · change count x h.obtained ≤ 1
    rw [hobt]
    exact Nat.zero_le 1
  · change r ∈ h.obtained at hr
    rw [hobt] at hr
    exact absurd hr List.not_mem_nil

theorem unitsFor_bytes (nbytes : Nat) : nbytes + HEADER ≤ HEADER * unitsFor nbytes := by
  rw [unitsFor, HEADER]
  omega

/-- After `malloc` has returned `ap`. -/
def State.after (s : State) (h : Heap) : Nat → State
  | 0 => { s with heap := h, ret := 0 }
  | ap => { s with
      heap := h
      ret := ap
      live := ⟨ap - HEADER, HEADER * (h.mem (ap - HEADER)).size⟩ :: s.live }

theorem Good.first (hg : Good base s) (hbase : 0 < base) : ∃ h₀ fl,
    (if s.heap.freep = 0 then { s.heap.set base ⟨base, 0⟩ with freep := base } else s.heap) = h₀ ∧
      h₀.obtained = s.heap.obtained ∧ Inv base h₀ s.live fl ∧ (s.heap.freep = 0 → fl = []) := by
  rcases hg.heap with ⟨h0, hobt, hlive, hbrk⟩ | ⟨fl, hi⟩
  · exact ⟨_, [], if_pos h0, rfl, hlive ▸ inv_first hbrk hobt, fun _ => rfl⟩
  · exact ⟨_, fl, if_neg (hi.freep_pos hbase), rfl, hi, fun h => absurd h (hi.freep_pos hbase)⟩

theorem Good.call (hg : Good base s) (hbase : 0 < base) (hw : Within s (.malloc nbytes sbrk)) :
    ∃ h' ap, Malloc.malloc base (rounds s.heap) sbrk s.heap nbytes = some (h', ap) ∧ Good base (s.after h' ap) ∧
      (ap = 0 ∧ (s.after h' ap).live = s.live ∨
        ∃ d, ap = d.addr + HEADER ∧ (s.after h' ap).live = d :: s.live ∧ nbytes + HEADER ≤ d.len) := by
  have hsmall : sbrk ≠ none → total s.heap.obtained + HEADER * max (unitsFor nbytes) 4096 < HEADER * 2 ^ 32 := by
    cases sbrk with
    | none => exact fun hc => absurd rfl hc
    | some skip => exact fun _ => hw
  obtain ⟨h₀, fl, hh₀, hobt, hi, -⟩ := hg.first hbase
  rw [← hobt] at hsmall
  have hlen := hi.length_le
  have hloop := hi.mallocLoop (unitsFor nbytes) (rounds s.heap) hbase (Nat.succ_pos _) (hobt ▸ hg.limit) hsmall
    (by rw [rounds, ← hobt]; omega)
  simp only [Malloc.malloc, hh₀]
  rcases hloop with heq | ⟨h', fl', d, heq, hi', hdlen, hlim⟩
  · exact ⟨h₀, 0, heq, ⟨hg.ends, hobt.symm ▸ hg.limit, .inr ⟨fl, hi⟩⟩, .inl ⟨rfl, rfl⟩⟩
  · have hd : (⟨d.addr + HEADER - HEADER, HEADER * (h'.mem (d.addr + HEADER - HEADER)).size⟩ : Extent) = d := by
      rw [Nat.add_sub_cancel]
      exact congrArg (Extent.mk d.addr) (hi'.size d List.mem_cons_self)
    have hlive : (s.after h' (d.addr + HEADER)).live = d :: s.live := congrArg (· :: s.live) hd
    refine ⟨h', d.addr + HEADER, heq, ⟨hg.ends, hlim, .inr ⟨fl', ?_⟩⟩,
      .inr ⟨d, rfl, hlive, hdlen ▸ unitsFor_bytes nbytes⟩⟩
    rw [hlive]
    exact hi'

theorem Good.malloc (hg : Good base s) (hbase : 0 < base) (hw : Within s (.malloc nbytes sbrk))
    (hs : step base s (.malloc nbytes sbrk) = some s') :
    Good base s' ∧ (s'.ret = 0 ∧ s'.live = s.live ∨
      ∃ d, s'.ret = d.addr + HEADER ∧ s'.live = d :: s.live ∧ nbytes + HEADER ≤ d.len) := by
  obtain ⟨h', ap, heq, hgood, hret⟩ := hg.call hbase hw
  rw [step] at hs
  split_ifs at hs
  rw [heq] at hs
  cases ap with
  | zero =>
    obtain rfl := Option.some.inj hs
    exact ⟨hgood, hret.imp_right fun ⟨d, hd, h⟩ => ⟨d, hd, h⟩⟩
  | succ n =>
    obtain rfl := Option.some.inj hs
    exact ⟨hgood, hret.imp_right fun ⟨d, hd, h⟩ => ⟨d, hd, h⟩⟩

theorem Good.free {ap : Nat} (hg : Good base s) (hs : step base s (.free ap) = some s') : Good base s' := by
  rw [step] at hs
  cases hfind : s.live.find? fun b => b.addr + HEADER = ap with
  | none =>
    simp [hfind] at hs
  | some b =>
    simp only [hfind, hg.ends, if_true] at hs
    have hb : b ∈ s.live := List.mem_of_find?_eq_some hfind
    have hap : b.addr + HEADER = ap := by simpa using List.find?_some hfind
    rcases hg.heap with ⟨-, -, hlive, -⟩ | ⟨fl, hi⟩
    · rw [hlive] at hb
      exact absurd hb List.not_mem_nil
    · have hlen := hi.length_le
      obtain ⟨h', fl', heq, hi', hobt⟩ := (hi.perm (List.perm_cons_erase hb)).free (rounds s.heap) hg.limit
        (by rw [rounds]; omega)
      rw [hap] at heq
      rw [heq] at hs
      obtain rfl := Option.some.inj hs
      exact ⟨rfl, hobt ▸ hg.limit, .inr ⟨fl', hi'⟩⟩

theorem Good.write {a : Nat} {x : Header} (hg : Good base s) (hs : step base s (.write a x) = some s') :
    Good base s' := by
  rw [step] at hs
  split_ifs at hs with hin
  obtain rfl := Option.some.inj hs
  obtain ⟨b, hb, hba, hab⟩ := hin
  refine ⟨hg.ends, hg.limit, ?_⟩
  rcases hg.heap with ⟨-, -, hlive, -⟩ | ⟨fl, hi⟩
  · rw [hlive] at hb
    exact absurd hb List.not_mem_nil
  · have hmem : ∀ c : Nat, c ≠ a → (s.heap.set a x).mem c = s.heap.mem c := fun c hc => update_of_ne hc _ _
    refine .inr ⟨fl, ⟨linked_of_mem_eq hi.list.linked fun c hc => hmem _ ?_, hi.list.freep, hi.list.spaced,
      hi.list.pos⟩, fun c hc => ?_,
      hi.pos, hi.tile, hi.once, hi.obtained, hi.brk⟩
    · rcases List.mem_cons.mp hc with rfl | hc
      · have := (hi.inside (List.mem_append_right fl hb)).1
        exact (by omega : base ≠ a)
      · have hc0 := hi.list.pos c hc
        have := hi.apart_live hc hb
        simp only [Apart, stop] at this hab
        omega
    · have hne : c.addr ≠ a := by
        by_cases hcb : c = b
        · rw [hcb]
          exact hba.ne
        · have hc0 := hi.pos c hc
          have hothers := (List.pairwise_append.mp (hi.perm (List.perm_cons_erase hb)).apart).2.1
          have := (List.pairwise_cons.mp hothers).1 c ((List.mem_erase_of_ne hcb).mpr hc)
          simp only [Apart, stop] at this hab
          omega
      rw [Heap.bytes, hmem _ hne]
      exact hi.size c hc

theorem Good.step (hg : Good base s) (hbase : 0 < base) (hw : Within s e) (hs : step base s e = some s') :
    Good base s' := by
  cases e with
  | malloc nbytes sbrk => exact (hg.malloc hbase hw hs).1
  | free ap => exact hg.free hs
  | write a x => exact hg.write hs

/-- The list is circular and in address order but for the link back to `base`, no two free blocks touch, and
the free and the live blocks are disjoint and make up the memory that `sbrk` has granted. -/
structure Sound (base : Nat) (s : State) (fl : List Extent) : Prop where
  circular : Linked s.heap.next s.heap.bytes base (bottom base :: fl) base
  freep : ∃ b ∈ bottom base :: fl, b.addr = s.heap.freep
  ordered : (bottom base :: fl).Pairwise fun b c => b.stop < c.addr
  disjoint : (fl ++ s.live).Pairwise Apart
  tiles : ∀ x, (∃ r ∈ s.heap.obtained, r.addr ≤ x ∧ x < r.stop) ↔ ∃ b ∈ fl ++ s.live, b.addr ≤ x ∧ x < b.stop

theorem Inv.sound (hi : Inv base s.heap s.live fl) : Sound base s fl where
  circular := hi.list.linked
  freep := hi.list.freep
  ordered := hi.list.spaced
  disjoint := hi.apart
  tiles x := by rw [← count_pos, ← count_pos, hi.tile.count_eq]

/-- In every run in which `sbrk` grants less than `2^32` units: the loops of `malloc` and `free` end, the
heap is sound from the first `malloc` on, and `malloc(n)` returns 0 or a block with room for `n` bytes,
apart from all live blocks. -/
theorem heap_sound {mem : Nat → Header} {brk : Nat} {es : List Event} (hbase : 0 < base) (hbrk : base + HEADER ≤ brk)
    (hrun : Machine.Run (step base) Within (boot mem brk) es s) :
    s.hung = false ∧ (s.heap.freep = 0 → s.heap.obtained = [] ∧ s.live = []) ∧
    (s.heap.freep ≠ 0 → ∃ fl, Sound base s fl) ∧
      ∀ nbytes sbrk s', Within s (.malloc nbytes sbrk) → step base s (.malloc nbytes sbrk) = some s' →
        s'.hung = false ∧ (s'.ret = 0 ∧ s'.live = s.live ∨
          ∃ d, s'.ret = d.addr + HEADER ∧ s'.live = d :: s.live ∧ nbytes ≤ d.len - HEADER ∧ ∀ c ∈ s.live,
          Apart d c) := by
  have hg : Good base s := hrun.inv (I := fun _ s => Good base s) (good_boot hbrk) fun _ _ _ _ _ ht hw hs =>
    ht.step hbase hw hs
  refine ⟨hg.ends, fun h0 => ?_, fun hne => ?_, fun nbytes sbrk s' hw hs => ?_⟩
  · rcases hg.heap with ⟨-, hobt, hlive, -⟩ | ⟨fl, hi⟩
    · exact ⟨hobt, hlive⟩
    · exact absurd h0 (hi.freep_pos hbase)
  · rcases hg.heap with ⟨h0, -⟩ | ⟨fl, hi⟩
    · exact absurd h0 hne
    · exact ⟨fl, hi.sound⟩
  · obtain ⟨hg', hret⟩ := hg.malloc hbase hw hs
    refine ⟨hg'.ends, hret.imp_right fun ⟨d, hd, hlive, hlen⟩ => ⟨d, hd, hlive, Nat.le_sub_of_add_le hlen, ?_⟩⟩
    rcases hg'.heap with ⟨-, -, hnil, -⟩ | ⟨fl, hi⟩
    · simp [hlive] at hnil
    · have hap := (List.pairwise_append.mp hi.apart).2.1
      rw [hlive] at hap
      exact (List.pairwise_cons.mp hap).1

/-- Two blocks, of which the first is written to and the second freed. -/
def brief : List Event := [.malloc 100 (some 0), .malloc 70000 (some 8), .write 67480 ⟨7, 7⟩, .free 67608]

theorem heap_sound_brief : ∃ s, Machine.Run (step 16) Within (boot (fun _ => ⟨0, 0⟩) 2048) brief s ∧ s.live =
    [⟨67456, 128⟩] ∧
    s.hung = false ∧ (s.heap.freep = 0 → s.heap.obtained = [] ∧ s.live = []) ∧
    (s.heap.freep ≠ 0 → ∃ fl, Sound 16 s fl) ∧
      ∀ nbytes sbrk s', Within s (.malloc nbytes sbrk) → step 16 s (.malloc nbytes sbrk) = some s' →
        s'.hung = false ∧ (s'.ret = 0 ∧ s'.live = s.live ∨
          ∃ d, s'.ret = d.addr + HEADER ∧ s'.live = d :: s.live ∧ nbytes ≤ d.len - HEADER ∧ ∀ c ∈ s.live,
          Apart d c) := by
  obtain ⟨s, hrun, hlive⟩ : ∃ s, Machine.Run (step 16) Within (boot (fun _ => ⟨0, 0⟩) 2048) brief s ∧
      s.live = [⟨67456, 128⟩] := by decide +kernel
  exact ⟨s, hrun, hlive, heap_sound (by decide) (by decide) hrun⟩

/-- A program that takes more than `2^32` units, in pieces of almost `2^31` bytes, and frees them all. -/
def vast : List Event :=
  List.replicate 33 (.malloc (HEADER * (2 ^ 27 - 2)) (some 0)) ++
    (List.range 33).map fun i => .free (4096 + HEADER + i * (HEADER * (2 ^ 27 - 1)))

/-- The size of the merged block wraps: the free list does not cover the memory any more. -/
theorem merged_size_wraps : ∃ s, Machine.Run (step 16) Machine.any (boot (fun _ => ⟨0, 0⟩) 4096) vast s ∧ s.live = [] ∧
    s.heap.freep ≠ 0 ∧ ¬∃ fl, Sound 16 s fl := by
  obtain ⟨s, hs, hlive, hfreep, hn1, hn2, hbytes, hobt⟩ : ∃ s, Machine.Run (step 16) Machine.any
      (boot (fun _ => ⟨0, 0⟩) 4096) vast s ∧ s.live = [] ∧ s.heap.freep ≠ 0 ∧ s.heap.next 16 = 4096 ∧
      s.heap.next 4096 = 16 ∧ s.heap.bytes 4096 = HEADER * (2 ^ 27 - 33) ∧
      ⟨4096, HEADER * (2 ^ 27 - 1)⟩ ∈ s.heap.obtained := by decide +kernel
  refine ⟨s, hs, hlive, hfreep, fun ⟨fl, hsound⟩ => ?_⟩
  -- the list is `base` and one block
  obtain ⟨-, -, hl⟩ := hsound.circular
  rw [show (bottom 16).addr = 16 from rfl, hn1] at hl
  have hup := (List.pairwise_cons.mp hsound.ordered).1
  have hfl : fl = [⟨4096, HEADER * (2 ^ 27 - 33)⟩] := by
    cases fl with
    | nil => exact absurd (show 4096 = 16 from hl) (by decide)
    | cons c fl =>
      obtain ⟨hc, hsize, hl⟩ := hl
      rw [← hc, hn2] at hl
      cases fl with
      | nil =>
        rw [← hc, hbytes] at hsize
        exact congrArg (· :: []) (by rw [hc, hsize])
      | cons d fl =>
        have hd := hup d (List.mem_cons_of_mem c List.mem_cons_self)
        rw [← hl.1] at hd
        exact absurd hd (by decide)
  obtain ⟨b, hb, h1, h2⟩ := (hsound.tiles (4096 + HEADER * (2 ^ 27 - 2))).mp ⟨_, hobt, by decide, by decide⟩
  rw [hlive, hfl] at hb
  rw [List.mem_singleton.mp hb] at h2
  exact absurd h2 (by decide)

end Xv6.Malloc
