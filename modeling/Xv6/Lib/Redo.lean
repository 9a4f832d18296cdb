import Mathlib.Data.List.Nodup
import Mathlib.Logic.Function.Basic
import Mathlib.Tactic.SplitIfs

/-!
# Redo logging

A disk is a function from addresses to blocks that changes one block at a time. Part of it is a log: a
head, which names the blocks of a committed update, and slots, which hold their new contents. `Durable d t`
says that the home blocks of `d` will be those of `t` once the log has been replayed. A replay may stop
after any of its writes and be started again, and a commit that stops after any of its writes leaves the
disk durable either for the old contents or for the new ones.
-/

namespace Redo

open Function (update update_of_ne update_self)

variable {A B : Type*} [DecidableEq A]

/-- The disk after a list of block writes. -/
def apply (d : A → B) (ws : List (A × B)) : A → B :=
  ws.foldl (fun d w => update d w.1 w.2) d

variable {d d' : A → B} {ws ws' : List (A × B)} {a : A} {b : B}

@[simp] theorem apply_nil (d : A → B) : apply d [] = d := rfl

@[simp] theorem apply_cons (w : A × B) : apply d (w :: ws) = apply (update d w.1 w.2) ws := rfl

theorem apply_append (d : A → B) (ws ws' : List (A × B)) :
    apply d (ws ++ ws') = apply (apply d ws) ws' := List.foldl_append

theorem apply_concat (d : A → B) (ws : List (A × B)) (w : A × B) :
    apply d (ws ++ [w]) = update (apply d ws) w.1 w.2 := apply_append d ws [w]

theorem apply_of_not_mem (h : ∀ w ∈ ws, w.1 ≠ a) : apply d ws a = d a := by
  induction ws generalizing d with
  | nil => rfl
  | cons w ws ih =>
    rw [apply_cons, ih fun v hv => h v (List.mem_cons_of_mem w hv),
      update_of_ne (h w List.mem_cons_self).symm]

theorem apply_of_mem {P : B → Prop} (hmem : ∃ b, (a, b) ∈ ws) (h : ∀ b, (a, b) ∈ ws → P b) :
    P (apply d ws a) := by
  induction ws generalizing d with
  | nil => obtain ⟨b, hb⟩ := hmem; cases hb
  | cons w ws ih =>
    rw [apply_cons]
    by_cases hrest : ∃ b, (a, b) ∈ ws
    · exact ih hrest fun b hb => h b (List.mem_cons_of_mem w hb)
    · obtain ⟨b, hb⟩ := hmem
      obtain rfl : (a, b) = w := (List.mem_cons.mp hb).resolve_right fun hm => hrest ⟨b, hm⟩
      rw [apply_of_not_mem fun v hv hva => hrest ⟨v.2, hva ▸ hv⟩, update_self]
      exact h b List.mem_cons_self

omit [DecidableEq A] in
theorem prefix_append_cases {xs ys : List (A × B)} (h : ws <+: xs ++ ys) :
    ws <+: xs ∨ ∃ zs, ws = xs ++ zs ∧ zs <+: ys := by
  rcases List.prefix_or_prefix_of_prefix h (List.prefix_append xs ys) with h' | ⟨zs, rfl⟩
  · exact .inl h'
  · exact .inr ⟨zs, rfl, (List.prefix_append_right_inj xs).mp h⟩

/-- Where the log is on the disk, and how its head is read. -/
structure Layout (A B : Type*) where
  head : A
  slot : Nat → A
  cap : Nat
  decode : B → List A
  slot_inj : ∀ j k, slot j = slot k → j = k
  slot_ne : ∀ k, slot k ≠ head

namespace Layout

variable (l : Layout A B) {as : List A} {e f : B} {t : A → B} {v : A → B}

/-- A block outside the log. -/
def home (a : A) : Prop := a ≠ l.head ∧ ∀ k < l.cap, a ≠ l.slot k

/-- The blocks an update may consist of. -/
structure Fits (as : List A) : Prop where
  le : as.length ≤ l.cap
  nodup : as.Nodup
  home : ∀ a ∈ as, l.home a

/-- Replaying the log of `d` gives the home blocks of `t`. -/
structure Durable (d t : A → B) : Prop where
  fits : l.Fits (l.decode (d l.head))
  slots : ∀ k a, (l.decode (d l.head))[k]? = some a → t a = d (l.slot k)
  rest : ∀ a, l.home a → a ∉ l.decode (d l.head) → t a = d a

/-- The slots go to their blocks. -/
def install (d : A → B) (as : List A) : List (A × B) := as.mapIdx fun k a => (a, d (l.slot k))

/-- The writes of a replay: the blocks are installed, then the head is cleared. -/
def replay (d : A → B) (as : List A) (e : B) : List (A × B) := l.install d as ++ [(l.head, e)]

/-- The writes that save an update in the log and commit it. -/
def save (as : List A) (v : A → B) (f : B) : List (A × B) :=
  as.mapIdx (fun k a => (l.slot k, v a)) ++ [(l.head, f)]

/-- The contents `t` with an update made. -/
def merge (t : A → B) (as : List A) (v : A → B) : A → B := fun a => if a ∈ as then v a else t a

variable {l}

omit [DecidableEq A] in
theorem durable_of_clean (hc : l.decode (d l.head) = []) (h : ∀ a, l.home a → t a = d a) : l.Durable d t where
  fits := by rw [hc]; exact ⟨Nat.zero_le _, List.nodup_nil, fun a ha => by cases ha⟩
  slots k a hk := by simp [hc] at hk
  rest a ha _ := h a ha

omit [DecidableEq A] in
theorem Durable.mem_install (h : l.Durable d t) {w : A × B} (hw : w ∈ l.install d (l.decode (d l.head))) :
    w.1 ∈ l.decode (d l.head) ∧ t w.1 = w.2 := by
  obtain ⟨k, hk, rfl⟩ := List.mem_mapIdx.mp hw
  exact ⟨List.getElem_mem hk, h.slots k _ (List.getElem?_eq_getElem hk)⟩

theorem Durable.install_cut (h : l.Durable d t) (hws : ws <+: l.install d (l.decode (d l.head))) :
    l.Durable (apply d ws) t := by
  have hmem : ∀ w ∈ ws, w.1 ∈ l.decode (d l.head) := fun w hw => (h.mem_install (hws.mem hw)).1
  have hhead : apply d ws l.head = d l.head :=
    apply_of_not_mem fun w hw heq => (h.fits.home _ (hmem w hw)).1 heq
  refine ⟨by rw [hhead]; exact h.fits, fun k a hk => ?_, fun a ha hna => ?_⟩
  · rw [hhead] at hk
    have hlt : k < l.cap := by
      have := h.fits.le
      have := (List.getElem?_eq_some_iff.mp hk).1
      omega
    rw [h.slots k a hk, apply_of_not_mem fun w hw => (h.fits.home _ (hmem w hw)).2 k hlt]
  · rw [hhead] at hna
    rw [h.rest a ha hna, apply_of_not_mem]
    rintro w hw rfl
    exact hna (hmem w hw)

theorem Durable.install_all (h : l.Durable d t) (ha : l.home a) :
    t a = apply d (l.install d (l.decode (d l.head))) a := by
  by_cases hm : a ∈ l.decode (d l.head)
  · obtain ⟨k, hk, hka⟩ := List.getElem_of_mem hm
    refine apply_of_mem ⟨d (l.slot k), ?_⟩ fun b hb => (h.mem_install hb).2
    exact List.mem_mapIdx.mpr ⟨k, hk, by rw [hka]⟩
  · rw [h.rest a ha hm, apply_of_not_mem]
    rintro w hw rfl
    exact hm (h.mem_install hw).1

theorem Durable.replay_done (h : l.Durable d t) (hed : l.decode e = []) :
    l.decode (apply d (l.replay d (l.decode (d l.head)) e) l.head) = [] ∧
      ∀ a, l.home a → t a = apply d (l.replay d (l.decode (d l.head)) e) a := by
  rw [replay, apply_concat]
  refine ⟨by rw [update_self]; exact hed, fun a ha => ?_⟩
  rw [update_of_ne ha.1]
  exact h.install_all ha

theorem Durable.replay_cut (h : l.Durable d t) (hed : l.decode e = [])
    (hws : ws <+: l.replay d (l.decode (d l.head)) e) : l.Durable (apply d ws) t := by
  rcases List.prefix_concat_iff.mp hws with rfl | hws
  · obtain ⟨hclean, hhome⟩ := h.replay_done hed
    exact durable_of_clean hclean hhome
  · exact h.install_cut hws

theorem durable_save (ht : ∀ a, l.home a → t a = d a) (hfit : l.Fits as) (hfd : l.decode f = as) :
    l.Durable (apply d (l.save as v f)) (merge t as v) ∧
      ∀ k a, as[k]? = some a → apply d (l.save as v f) (l.slot k) = v a := by
  have hhead : apply d (l.save as v f) l.head = f := by rw [save, apply_concat, update_self]
  have hslot : ∀ k a, as[k]? = some a → apply d (l.save as v f) (l.slot k) = v a := by
    intro k a hk
    obtain ⟨hlt, rfl⟩ := List.getElem?_eq_some_iff.mp hk
    rw [save, apply_concat, update_of_ne (l.slot_ne k)]
    refine apply_of_mem (P := fun b => b = v as[k]) ⟨_, List.mem_mapIdx.mpr ⟨k, hlt, rfl⟩⟩ fun b hb => ?_
    obtain ⟨j, hj, hjk⟩ := List.mem_mapIdx.mp hb
    obtain ⟨hs, rfl⟩ := Prod.mk.inj hjk
    obtain rfl := l.slot_inj _ _ hs
    rfl
  have hhome : ∀ a, l.home a → apply d (l.save as v f) a = d a := by
    intro a ha
    rw [save, apply_concat, update_of_ne ha.1, apply_of_not_mem]
    rintro w hw rfl
    obtain ⟨k, hk, rfl⟩ := List.mem_mapIdx.mp hw
    have := hfit.le
    exact ha.2 k (by omega) rfl
  refine ⟨⟨by rw [hhead, hfd]; exact hfit, fun k a hk => ?_, fun a ha hna => ?_⟩, hslot⟩
  · rw [hhead, hfd] at hk
    rw [merge, if_pos (List.mem_of_getElem? hk), hslot k a hk]
  · rw [hhead, hfd] at hna
    rw [merge, if_neg hna, ht a ha, hhome a ha]

theorem durable_slots (hc : l.decode (d l.head) = []) (ht : ∀ a, l.home a → t a = d a)
    (hfit : l.Fits as) (hws : ws <+: as.mapIdx fun k a => (l.slot k, v a)) :
    l.Durable (apply d ws) t := by
  have hslot : ∀ w ∈ ws, ∃ k < l.cap, w.1 = l.slot k := by
    intro w hw
    obtain ⟨k, hk, rfl⟩ := List.mem_mapIdx.mp (hws.mem hw)
    exact ⟨k, by have := hfit.le; omega, rfl⟩
  refine durable_of_clean ?_ fun a ha => ?_
  · rw [apply_of_not_mem, hc]
    intro w hw heq
    obtain ⟨k, -, hk⟩ := hslot w hw
    exact l.slot_ne k (hk.symm.trans heq)
  · rw [ht a ha, apply_of_not_mem]
    intro w hw heq
    obtain ⟨k, hlt, hk⟩ := hslot w hw
    exact ha.2 k hlt (heq.symm.trans hk)

/-- The writes of a commit: the update is saved, then replayed. -/
def commit (l : Layout A B) (as : List A) (v : A → B) (f e : B) : List (A × B) :=
  l.save as v f ++ (as.map (fun a => (a, v a)) ++ [(l.head, e)])

theorem commit_eq_replay (ht : ∀ a, l.home a → t a = d a) (hfit : l.Fits as) (hfd : l.decode f = as) :
    as.map (fun a => (a, v a)) ++ [(l.head, e)] =
      l.replay (apply d (l.save as v f)) (l.decode (apply d (l.save as v f) l.head)) e := by
  have hhead : apply d (l.save as v f) l.head = f := by rw [save, apply_concat, update_self]
  rw [hhead, hfd, replay, install]
  congr 1
  refine List.ext_getElem (by simp) fun k hk hk' => ?_
  have hlt : k < as.length := by simpa using hk
  rw [List.getElem_map, List.getElem_mapIdx,
    (durable_save ht hfit hfd).2 k as[k] (List.getElem?_eq_getElem hlt)]

theorem commit_cut (hc : l.decode (d l.head) = []) (ht : ∀ a, l.home a → t a = d a) (hfit : l.Fits as)
    (hfd : l.decode f = as) (hed : l.decode e = []) (hws : ws <+: l.commit as v f e) :
    l.Durable (apply d ws) t ∨ l.Durable (apply d ws) (merge t as v) := by
  rcases prefix_append_cases hws with hws | ⟨zs, rfl, hzs⟩
  · rcases List.prefix_concat_iff.mp hws with rfl | hws
    · exact .inr (durable_save ht hfit hfd).1
    · exact .inl (durable_slots hc ht hfit hws)
  · rw [commit_eq_replay ht hfit hfd] at hzs
    rw [apply_append]
    exact .inr ((durable_save ht hfit hfd).1.replay_cut hed hzs)

theorem commit_done (ht : ∀ a, l.home a → t a = d a)
    (hfit : l.Fits as) (hfd : l.decode f = as) (hed : l.decode e = []) :
    l.decode (apply d (l.commit as v f e) l.head) = [] ∧
      ∀ a, l.home a → merge t as v a = apply d (l.commit as v f e) a := by
  rw [commit, commit_eq_replay ht hfit hfd, apply_append]
  exact (durable_save ht hfit hfd).1.replay_done hed

end Layout

end Redo
