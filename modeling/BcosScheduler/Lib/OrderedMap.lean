/-
BcosScheduler/Lib/OrderedMap.lean

Ordered maps as association lists in ascending key order, with the
insert-if-absent semantics of an ordered container: `emplace` on a key that
is already present changes nothing.

Two sets of facts are kept apart on purpose.  Membership facts about a key
that is *absent* hold for any list; only the facts about keys that are
present (uniqueness, exact lookup) need the ascending order.
-/
import Mathlib.Order.Lattice
import Mathlib.Data.List.Basic
import Mathlib.Data.List.Perm.Basic

namespace OrderedMap

variable {κ α : Type*} [LinearOrder κ]

/-- Keys in strictly ascending order. -/
def Ascending (m : List (κ × α)) : Prop := m.Pairwise fun a b => a.1 < b.1

/-- Insert `(k, v)` at its place unless the key is present. -/
def emplace (k : κ) (v : α) : List (κ × α) → List (κ × α)
  | [] => [(k, v)]
  | e :: rest =>
      if k < e.1 then (k, v) :: e :: rest
      else if e.1 = k then e :: rest
      else e :: emplace k v rest

/-- The value stored under `k`. -/
def find? (k : κ) (m : List (κ × α)) : Option α :=
  (m.find? fun e => e.1 = k).map Prod.snd

/-- Remove the entry of `k`. -/
def erase (k : κ) (m : List (κ × α)) : List (κ × α) := m.filter fun e => e.1 ≠ k

/-- The values of a map do not decide where an entry is put. -/
theorem map_emplace {β : Type*} (f : α → β) (k : κ) (v : α) (m : List (κ × α)) :
    (emplace k v m).map (fun e => (e.1, f e.2)) = emplace k (f v) (m.map fun e => (e.1, f e.2)) := by
  induction m with
  | nil => rfl
  | cons e rest ih =>
      simp only [emplace, List.map_cons]
      split_ifs
      · rfl
      · rfl
      · rw [List.map_cons, ih]

/-! ### Inserting an absent key -/

theorem emplace_perm {k : κ} {v : α} {m : List (κ × α)} (h : ∀ e ∈ m, e.1 ≠ k) :
    (emplace k v m).Perm ((k, v) :: m) := by
  induction m with
  | nil => exact List.Perm.refl _
  | cons e rest ih =>
      unfold emplace
      have hne : e.1 ≠ k := h e (by simp)
      -- the case of a present key is excluded
      split_ifs with hlt
      · exact List.Perm.refl _
      · exact ((ih fun e' he' => h e' (by simp [he'])).cons e).trans (List.Perm.swap _ _ _)

theorem mem_emplace {k : κ} {v : α} {m : List (κ × α)} (h : ∀ e ∈ m, e.1 ≠ k)
    {e : κ × α} : e ∈ emplace k v m ↔ e = (k, v) ∨ e ∈ m := by
  rw [(emplace_perm h).mem_iff, List.mem_cons]

/-- The keys after an insertion, whether or not the key was there. -/
theorem mem_keys_emplace {k k' : κ} {v : α} {m : List (κ × α)} :
    k' ∈ (emplace k v m).map Prod.fst ↔ k' = k ∨ k' ∈ m.map Prod.fst := by
  induction m with
  | nil => simp [emplace]
  | cons e rest ih =>
      unfold emplace
      split_ifs with hlt heq
      · simp
      · subst heq
        simp
      · rw [List.map_cons, List.mem_cons, ih, List.map_cons, List.mem_cons]
        exact or_left_comm

/-! ### Ascending order -/

theorem mem_of_mem_emplace {k : κ} {v : α} {m : List (κ × α)} {e : κ × α}
    (h : e ∈ emplace k v m) : e = (k, v) ∨ e ∈ m := by
  induction m with
  | nil => simpa [emplace] using h
  | cons e' rest ih =>
      unfold emplace at h
      split_ifs at h with hlt heq
      · simpa using h
      · exact Or.inr h
      · rcases List.mem_cons.mp h with rfl | h
        · simp
        · rcases ih h with rfl | h
          · simp
          · simp [h]

theorem Ascending.emplace {m : List (κ × α)} (h : Ascending m) (k : κ) (v : α) :
    Ascending (emplace k v m) := by
  induction m with
  | nil => simp [OrderedMap.emplace, Ascending]
  | cons e rest ih =>
      obtain ⟨hhead, htail⟩ := List.pairwise_cons.mp h
      unfold OrderedMap.emplace
      split_ifs with hlt heq
      · refine List.pairwise_cons.mpr ⟨fun e' he' => ?_, h⟩
        rcases List.mem_cons.mp he' with rfl | he'
        · exact hlt
        · exact hlt.trans (hhead e' he')
      · exact h
      · refine List.pairwise_cons.mpr ⟨fun e' he' => ?_, ih htail⟩
        rcases mem_of_mem_emplace he' with rfl | he'
        · exact lt_of_le_of_ne (not_lt.mp hlt) heq
        · exact hhead e' he'

/-- A loop that inserts the entries of a list one after the other has the keys of
the list in the end. -/
theorem mem_keys_foldl_emplace {β : Type*} (key : β → κ) (value : β → α) {k : κ} (l : List β) :
    ∀ m : List (κ × α), k ∈ (l.foldl (fun m b => emplace (key b) (value b) m) m).map Prod.fst ↔
      k ∈ l.map key ∨ k ∈ m.map Prod.fst := by
  induction l with
  | nil => simp
  | cons b rest ih =>
      intro m
      rw [List.foldl_cons, ih, mem_keys_emplace, List.map_cons, List.mem_cons]
      exact or_left_comm.trans or_assoc.symm

theorem Ascending.foldl_emplace {β : Type*} (key : β → κ) (value : β → α) (l : List β) :
    ∀ {m : List (κ × α)}, Ascending m →
      Ascending (l.foldl (fun m b => OrderedMap.emplace (key b) (value b) m) m) := by
  induction l with
  | nil => exact fun h => h
  | cons b rest ih => exact fun h => ih (h.emplace _ _)

theorem Ascending.erase {m : List (κ × α)} (h : Ascending m) (k : κ) :
    Ascending (erase k m) :=
  List.Pairwise.filter _ h

/-- Entries may change and go as long as the keys keep their order. -/
theorem Ascending.of_keys {m m' : List (κ × α)} (h : Ascending m)
    (hkeys : (m'.map Prod.fst).Sublist (m.map Prod.fst)) : Ascending m' :=
  List.pairwise_map.mp ((List.pairwise_map.mpr h).sublist hkeys)

/-- Ascending maps with the same entries are equal. -/
theorem Ascending.eq_of_perm {m m' : List (κ × α)} (h : Ascending m) (h' : Ascending m')
    (hperm : m.Perm m') : m = m' :=
  List.Perm.eq_of_pairwise (fun _ _ _ _ hlt hgt => absurd hgt (lt_asymm hlt)) h h' hperm

omit [LinearOrder κ] in
theorem keys_eq_of_forall₂ {R : κ × α → κ × α → Prop} (hkey : ∀ {a b}, R a b → a.1 = b.1)
    {m m' : List (κ × α)} (h : List.Forall₂ R m m') : m.map Prod.fst = m'.map Prod.fst := by
  induction h with
  | nil => rfl
  | cons hab _ ih => rw [List.map_cons, List.map_cons, hkey hab, ih]

/-- Entries that are related under the same keys stay so when they are put in
order. -/
theorem Ascending.forall₂ {R : κ × α → κ × α → Prop} (hkey : ∀ {a b}, R a b → a.1 = b.1)
    {l l' m m' : List (κ × α)} (hR : List.Forall₂ R l l') (h : Ascending m) (h' : Ascending m')
    (hperm : m.Perm l) (hperm' : m'.Perm l') : List.Forall₂ R m m' := by
  obtain ⟨w, hw, hwl⟩ := List.perm_comp_forall₂ hperm hR
  have hasc : Ascending w := h.of_keys (by rw [keys_eq_of_forall₂ hkey hw])
  rwa [hasc.eq_of_perm h' (hwl.trans hperm'.symm)] at hw

/-- In an ascending map the key determines the entry. -/
theorem Ascending.value_unique {m : List (κ × α)} (h : Ascending m) {k : κ} {v w : α}
    (hv : (k, v) ∈ m) (hw : (k, w) ∈ m) : v = w := by
  induction m with
  | nil => cases hv
  | cons e rest ih =>
      obtain ⟨hhead, htail⟩ := List.pairwise_cons.mp h
      rcases List.mem_cons.mp hv with rfl | hv'
      · rcases List.mem_cons.mp hw with hw' | hw'
        · exact (Prod.mk.inj hw').2.symm
        · exact absurd (hhead _ hw') (lt_irrefl k)
      · rcases List.mem_cons.mp hw with rfl | hw'
        · exact absurd (hhead _ hv') (lt_irrefl k)
        · exact ih htail hv' hw'

theorem find?_eq_some_iff {m : List (κ × α)} (h : Ascending m) {k : κ} {v : α} :
    find? k m = some v ↔ (k, v) ∈ m := by
  unfold find?
  constructor
  · intro hf
    obtain ⟨e, he, rfl⟩ := Option.map_eq_some_iff.mp hf
    have hk : e.1 = k := by simpa using List.find?_some he
    have hmem := List.mem_of_find?_eq_some he
    rwa [← hk]
  · intro hmem
    rcases hf : m.find? (fun e => e.1 = k) with _ | e
    · have hne := List.find?_eq_none.mp hf (k, v) hmem
      simp at hne
    · have hk : e.1 = k := by simpa using List.find?_some hf
      have he : (e.1, e.2) ∈ m := List.mem_of_find?_eq_some hf
      rw [← hk] at hmem
      rw [hf, Option.map_some, h.value_unique he hmem]

theorem find?_eq_none_iff {m : List (κ × α)} {k : κ} :
    find? k m = none ↔ ∀ e ∈ m, e.1 ≠ k := by
  simp [find?, List.find?_eq_none]

/-- Lookup by lower bound: the first entry whose key is not below `k` is the
entry of `k` if there is one. -/
theorem find?_eq_lowerBound {m : List (κ × α)} (h : Ascending m) (k : κ) :
    find? k m = match m.dropWhile fun e => e.1 < k with
      | e :: _ => if e.1 = k then some e.2 else none
      | [] => none := by
  induction m with
  | nil => rfl
  | cons e rest ih =>
      obtain ⟨hhead, htail⟩ := List.pairwise_cons.mp h
      by_cases hlt : e.1 < k
      · rw [List.dropWhile_cons_of_pos (by simpa using hlt), ← ih htail]
        simp [find?, hlt.ne]
      · rw [List.dropWhile_cons_of_neg (by simpa using hlt)]
        by_cases heq : e.1 = k
        · simp [find?, heq]
        · -- all later keys are above `e.1`, hence above `k`
          simp only [heq, if_false]
          apply find?_eq_none_iff.mpr
          intro e' he'
          rcases List.mem_cons.mp he' with rfl | he'
          · exact heq
          · have := hhead e' he'
            exact ne_of_gt (lt_of_le_of_lt (not_lt.mp hlt) this)

theorem mem_erase {m : List (κ × α)} {k : κ} {e : κ × α} :
    e ∈ erase k m ↔ e ∈ m ∧ e.1 ≠ k := by
  simp [erase]

end OrderedMap
