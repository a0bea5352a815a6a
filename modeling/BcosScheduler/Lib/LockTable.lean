/-
BcosScheduler/Lib/LockTable.lean

The abstract re-entrant lock table: which context owns which key, and which
context waits for which key, each entry labelled with the call frame that
made it.  A context may own a key several times, once for each of its
frames; releasing a frame drops the entries of that frame only.

The table is a pair of relations over arbitrary types of keys, contexts and
frame labels.  It says what a lock table is for; how one is stored is left to
its implementations, which are compared with it operation by operation.
-/
import Mathlib.Logic.Basic
import Mathlib.Logic.Relation
import Mathlib.Data.List.Induction
import Mathlib.Data.Set.Insert
import Mathlib.Tactic.Tauto

/-- Ownership and request entries of a re-entrant lock table. -/
@[ext] structure LockTable (K C S : Type*) where
  own : K → C → S → Prop
  req : K → C → S → Prop

namespace LockTable

variable {K C S : Type*}

/-- No entries. -/
def empty : LockTable K C S := ⟨fun _ _ _ => False, fun _ _ _ => False⟩

/-- No context other than `c` owns `k`. -/
def Free (t : LockTable K C S) (k : K) (c : C) : Prop := ∀ c' s, t.own k c' s → c' = c

/-- Give `k` to frame `s` of `c` and drop every request of `c` for it. -/
def grant (t : LockTable K C S) (k : K) (c : C) (s : S) : LockTable K C S where
  own k' c' s' := t.own k' c' s' ∨ (k' = k ∧ c' = c ∧ s' = s)
  req k' c' s' := t.req k' c' s' ∧ ¬ (k' = k ∧ c' = c)

/-- Note that frame `s` of `c` waits for `k`. -/
def await (t : LockTable K C S) (k : K) (c : C) (s : S) : LockTable K C S where
  own := t.own
  req k' c' s' := t.req k' c' s' ∨ (k' = k ∧ c' = c ∧ s' = s)

open Classical in
/-- Take `k` for frame `s` of `c` if no other context owns it, else wait. -/
noncomputable def acquire (t : LockTable K C S) (k : K) (c : C) (s : S) : LockTable K C S :=
  if t.Free k c then t.grant k c s else t.await k c s

/-- Drop everything frame `s` of `c` owns or waits for. -/
def release (t : LockTable K C S) (c : C) (s : S) : LockTable K C S where
  own k' c' s' := t.own k' c' s' ∧ ¬ (c' = c ∧ s' = s)
  req k' c' s' := t.req k' c' s' ∧ ¬ (c' = c ∧ s' = s)

/-- Give all keys of `ks` to frame `s` of `c`. -/
def grantAll (t : LockTable K C S) (ks : Set K) (c : C) (s : S) : LockTable K C S where
  own k' c' s' := t.own k' c' s' ∨ (k' ∈ ks ∧ c' = c ∧ s' = s)
  req k' c' s' := t.req k' c' s' ∧ ¬ (k' ∈ ks ∧ c' = c)

/-- `c` waits for a key that `c'` owns. -/
def WaitsFor (t : LockTable K C S) (c c' : C) : Prop :=
  ∃ k s s', t.req k c s ∧ t.own k c' s'

/-- Every key has at most one owner. -/
def Exclusive (t : LockTable K C S) : Prop :=
  ∀ ⦃k c c' s s'⦄, t.own k c s → t.own k c' s' → c = c'

/-- The entries of frame `s` of `c`, owned or requested. -/
def Holds (t : LockTable K C S) (c : C) (s : S) : Prop :=
  ∃ k, t.own k c s ∨ t.req k c s

variable {t : LockTable K C S} {k : K} {c : C} {s : S}

theorem acquire_of_free (h : t.Free k c) : t.acquire k c s = t.grant k c s := if_pos h

theorem acquire_of_not_free (h : ¬ t.Free k c) : t.acquire k c s = t.await k c s := if_neg h

theorem Exclusive.empty : Exclusive (empty : LockTable K C S) := by
  intro k c c' s s' h
  cases h

theorem Exclusive.acquire (ht : t.Exclusive) (k : K) (c : C) (s : S) :
    (t.acquire k c s).Exclusive := by
  by_cases hfree : t.Free k c
  · rw [acquire_of_free hfree]
    -- two owners of one key: both from before, one from before, or both the new one
    rintro k' c₁ c₂ s₁ s₂ (h₁ | ⟨rfl, rfl, rfl⟩) (h₂ | ⟨hk, hc, hs⟩)
    · exact ht h₁ h₂
    · subst hk hc hs
      exact hfree _ _ h₁
    · exact (hfree _ _ h₂).symm
    · exact hc.symm
  · rw [acquire_of_not_free hfree]
    exact ht

theorem Exclusive.release (ht : t.Exclusive) (c : C) (s : S) : (t.release c s).Exclusive :=
  fun _ _ _ _ _ h₁ h₂ => ht h₁.1 h₂.1

/-- Acquiring adds entries of the acquiring frame only. -/
theorem Holds.of_acquire {c' : C} {s' : S} (h : (t.acquire k c s).Holds c' s') :
    t.Holds c' s' ∨ (c' = c ∧ s' = s) := by
  obtain ⟨k', h⟩ := h
  by_cases hfree : t.Free k c
  · rw [acquire_of_free hfree] at h
    rcases h with (h | ⟨-, h⟩) | ⟨h, -⟩
    · exact Or.inl ⟨k', Or.inl h⟩
    · exact Or.inr h
    · exact Or.inl ⟨k', Or.inr h⟩
  · rw [acquire_of_not_free hfree] at h
    rcases h with h | h | ⟨-, h⟩
    · exact Or.inl ⟨k', Or.inl h⟩
    · exact Or.inl ⟨k', Or.inr h⟩
    · exact Or.inr h

/-- Releasing a frame leaves exactly the entries of the other frames. -/
theorem Holds.of_release {c' : C} {s' : S} (h : (t.release c s).Holds c' s') :
    t.Holds c' s' ∧ ¬ (c' = c ∧ s' = s) := by
  obtain ⟨k', ⟨h, hne⟩ | ⟨h, hne⟩⟩ := h
  · exact ⟨⟨k', Or.inl h⟩, hne⟩
  · exact ⟨⟨k', Or.inr h⟩, hne⟩

/-- The acquiring frame comes out with an entry, granted or not. -/
theorem holds_acquire_self : (t.acquire k c s).Holds c s := by
  by_cases hfree : t.Free k c
  · rw [acquire_of_free hfree]
    exact ⟨k, Or.inl (Or.inr ⟨rfl, rfl, rfl⟩)⟩
  · rw [acquire_of_not_free hfree]
    exact ⟨k, Or.inr (Or.inr ⟨rfl, rfl, rfl⟩)⟩

/-- An acquire drops requests of the acquiring context only. -/
theorem Holds.acquire_of_ne {c' : C} {s' : S} (h : t.Holds c' s') (hne : c' ≠ c) :
    (t.acquire k c s).Holds c' s' := by
  obtain ⟨k', h⟩ := h
  by_cases hfree : t.Free k c
  · rw [acquire_of_free hfree]
    exact ⟨k', h.imp Or.inl fun h => ⟨h, fun hkc => hne hkc.2⟩⟩
  · rw [acquire_of_not_free hfree]
    exact ⟨k', h.imp id Or.inl⟩

theorem holds_release_iff {c' : C} {s' : S} :
    (t.release c s).Holds c' s' ↔ t.Holds c' s' ∧ ¬ (c' = c ∧ s' = s) := by
  constructor
  · exact Holds.of_release
  · rintro ⟨⟨k', h⟩, hne⟩
    exact ⟨k', h.imp (fun h => ⟨h, hne⟩) fun h => ⟨h, hne⟩⟩

theorem Holds.of_grantAll {ks : Set K} {c' : C} {s' : S} (h : (t.grantAll ks c s).Holds c' s') :
    t.Holds c' s' ∨ (c' = c ∧ s' = s) := by
  obtain ⟨k', (h | ⟨-, h⟩) | ⟨h, -⟩⟩ := h
  · exact Or.inl ⟨k', Or.inl h⟩
  · exact Or.inr h
  · exact Or.inl ⟨k', Or.inr h⟩

theorem Exclusive.grantAll (ht : t.Exclusive) {ks : Set K} (hfree : ∀ k ∈ ks, t.Free k c) (s : S) :
    (t.grantAll ks c s).Exclusive := by
  rintro k c₁ c₂ s₁ s₂ (h₁ | ⟨hk₁, rfl, -⟩) (h₂ | ⟨hk₂, rfl, -⟩)
  · exact ht h₁ h₂
  · exact hfree k hk₂ c₁ s₁ h₁
  · exact (hfree k hk₁ c₂ s₂ h₂).symm
  · rfl

/-- Contexts that all wait for each other start no finite chain of waits. -/
theorem not_acc_of_all_wait {P : C → Prop} (h : ∀ c, P c → ∃ c', P c' ∧ t.WaitsFor c c')
    (hc : P c) : ¬ Acc (fun c' c => t.WaitsFor c c') c := by
  intro hacc
  induction hacc with
  | intro c _ ih =>
      obtain ⟨c', hc', hw⟩ := h c hc
      exact ih c' hw hc'

/-- Granting a key to `c` frees no key and takes none from `c`. -/
theorem free_grant_iff {k' : K} : (t.grant k c s).Free k' c ↔ t.Free k' c := by
  constructor
  · exact fun h c' s' ho => h c' s' (Or.inl ho)
  · rintro h c' s' (ho | ⟨-, hc, -⟩)
    · exact h c' s' ho
    · exact hc

theorem grantAll_empty : t.grantAll ∅ c s = t := by
  ext <;> simp [grantAll]

theorem grant_grantAll {ks : Set K} :
    (t.grant k c s).grantAll ks c s = t.grantAll (insert k ks) c s := by
  ext k' c' s'
  · simp only [grantAll, grant, Set.mem_insert_iff]
    tauto
  · simp only [grantAll, grant, Set.mem_insert_iff]
    tauto

/-! ### Waiting for an own key -/

/-- No context waits for a key it owns. -/
def NoSelfWait (t : LockTable K C S) : Prop := ∀ ⦃k c s s'⦄, t.own k c s → ¬ t.req k c s'

theorem NoSelfWait.empty : NoSelfWait (empty : LockTable K C S) := by
  intro k c s s' h
  cases h

theorem NoSelfWait.acquire (h : t.NoSelfWait) (ht : t.Exclusive) (k : K) (c : C) (s : S) :
    (t.acquire k c s).NoSelfWait := by
  by_cases hfree : t.Free k c
  · rw [acquire_of_free hfree]
    rintro k' c' s₁ s₂ (hown | ⟨rfl, rfl, -⟩) ⟨hreq, hne⟩
    · exact h hown hreq
    · exact hne ⟨rfl, rfl⟩
  · rw [acquire_of_not_free hfree]
    rintro k' c' s₁ s₂ hown (hreq | ⟨rfl, rfl, -⟩)
    · exact h hown hreq
    · -- another context owns the key, so this one does not
      exact hfree fun c₂ s₂ hown₂ => ht hown₂ hown

theorem NoSelfWait.release (h : t.NoSelfWait) (c : C) (s : S) : (t.release c s).NoSelfWait :=
  fun _ _ _ _ hown hreq => h hown.1 hreq.1

/-! ### Histories -/

/-- What happens to a lock table: an acquire, granted or not, or a release. -/
inductive Event (K C S : Type*)
  | acquire (k : K) (c : C) (s : S) (granted : Bool)
  | release (c : C) (s : S)

/-- The table after an event. -/
def play (t : LockTable K C S) : Event K C S → LockTable K C S
  | .acquire k c s true => t.grant k c s
  | .acquire k c s false => t.await k c s
  | .release c s => t.release c s

/-- The table a history leaves. -/
def playAll (h : List (Event K C S)) : LockTable K C S := h.foldl play empty

theorem playAll_concat (h : List (Event K C S)) (e : Event K C S) :
    playAll (h ++ [e]) = (playAll h).play e := by
  simp [playAll]

/-- The event `a` happened, and nothing that ends it since. -/
def Since {E : Type*} (a : E) (ends : E → Prop) (h : List E) : Prop :=
  ∃ before after, h = before ++ a :: after ∧ ∀ e ∈ after, ¬ ends e

theorem since_nil {E : Type*} {a : E} {ends : E → Prop} : ¬ Since a ends [] := by
  rintro ⟨before, after, h, -⟩
  simp at h

theorem since_concat {E : Type*} {a e : E} {ends : E → Prop} {h : List E} :
    Since a ends (h ++ [e]) ↔ e = a ∨ (Since a ends h ∧ ¬ ends e) := by
  constructor
  · rintro ⟨before, after, heq, hends⟩
    rcases after.eq_nil_or_concat with rfl | ⟨after, e', rfl⟩
    · exact Or.inl (List.append_inj_right' heq rfl |> List.singleton_inj.mp)
    · rw [List.concat_eq_append] at heq hends
      rw [← List.cons_append, ← List.append_assoc] at heq
      obtain ⟨rfl, he⟩ := List.append_inj' heq rfl
      obtain rfl := List.singleton_inj.mp he
      exact Or.inr ⟨⟨before, after, rfl, fun x hx => hends x (by simp [hx])⟩, hends e (by simp)⟩
  · rintro (rfl | ⟨⟨before, after, rfl, hends⟩, he⟩)
    · exact ⟨h, [], rfl, by simp⟩
    · refine ⟨before, after ++ [e], by simp, fun x hx => ?_⟩
      rcases List.mem_append.mp hx with hx | hx
      · exact hends x hx
      · rw [List.mem_singleton.mp hx]
        exact he

/-- A frame owns what it was granted and did not release since. -/
theorem own_playAll_iff {h : List (Event K C S)} :
    (playAll h).own k c s ↔ Since (.acquire k c s true) (fun e => e = .release c s) h := by
  induction h using List.reverseRecOn with
  | nil => exact ⟨False.elim, fun hsince => absurd hsince since_nil⟩
  | append_singleton h e ih =>
      rw [since_concat, ← ih, playAll_concat]
      rcases e with ⟨k', c', s', _ | _⟩ | ⟨c', s'⟩
      · simp [play, await]
      · simp only [play, grant, Event.acquire.injEq, and_true, reduceCtorEq, not_false_eq_true,
          eq_comm (a := k), eq_comm (a := c), eq_comm (a := s)]
        exact or_comm
      · simp only [play, LockTable.release, Event.release.injEq, reduceCtorEq, false_or,
          eq_comm (a := c), eq_comm (a := s)]

/-- A frame waits for what it was refused, unless it released since or its
context was granted the key. -/
theorem req_playAll_iff {h : List (Event K C S)} :
    (playAll h).req k c s ↔ Since (.acquire k c s false)
      (fun e => e = .release c s ∨ ∃ s', e = .acquire k c s' true) h := by
  induction h using List.reverseRecOn with
  | nil => exact ⟨False.elim, fun hsince => absurd hsince since_nil⟩
  | append_singleton h e ih =>
      rw [since_concat, ← ih, playAll_concat]
      rcases e with ⟨k', c', s', _ | _⟩ | ⟨c', s'⟩
      · simp only [play, await, Event.acquire.injEq, and_true, reduceCtorEq, and_false,
          exists_false, or_self, not_false_eq_true, eq_comm (a := k), eq_comm (a := c),
          eq_comm (a := s)]
        exact or_comm
      · simp [play, grant, eq_comm (a := k), eq_comm (a := c)]
      · simp only [play, LockTable.release, Event.release.injEq, reduceCtorEq, false_or,
          exists_false, or_false, eq_comm (a := c), eq_comm (a := s)]

end LockTable
