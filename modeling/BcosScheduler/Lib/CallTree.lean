/-
BcosScheduler/Lib/CallTree.lean

Call stacks and who called whom.

Contexts open call frames, each with a number above all it used before, and
close the top frame.  The openings of all contexts are kept in a list; an
opening says which frame was on top, that is which frame called.  `Frames` ties
a stack to the openings: it descends from the top, and under every frame lies
the frame that opened it, so closing a frame goes back to its caller.
-/
import Mathlib.Data.List.Pairwise
import Mathlib.Data.List.Nodup
import Mathlib.Order.Lattice

namespace CallTree

variable {C S : Type*}

/-- A frame of a context was opened by another one, or as the first. -/
structure Opening (C S : Type*) where
  context : C
  frame : S
  caller : Option S
  deriving DecidableEq, Repr

/-- What identifies a frame. -/
def Opening.key (o : Opening C S) : C × S := (o.context, o.frame)

/-- Under every frame of a stack, top first, lies the one that opened it. -/
inductive Linked (opens : List (Opening C S)) (c : C) : List S → Prop
  | nil : Linked opens c []
  | first {s : S} : ⟨c, s, none⟩ ∈ opens → Linked opens c [s]
  | call {s p : S} {stack : List S} : ⟨c, s, some p⟩ ∈ opens → Linked opens c (p :: stack) →
      Linked opens c (s :: p :: stack)

variable {opens opens' : List (Opening C S)} {c : C} {s p : S} {stack : List S}

theorem Linked.mono (h : Linked opens c stack) (hsub : opens ⊆ opens') :
    Linked opens' c stack := by
  induction h with
  | nil => exact .nil
  | first hmem => exact .first (hsub hmem)
  | call hmem _ ih => exact .call (hsub hmem) ih

theorem Linked.tail (h : Linked opens c (s :: stack)) : Linked opens c stack := by
  cases h with
  | first _ => exact .nil
  | call _ h => exact h

/-- Every frame of a stack was opened. -/
theorem Linked.opened (h : Linked opens c stack) : ∀ s ∈ stack, ∃ caller, ⟨c, s, caller⟩ ∈ opens := by
  induction h with
  | nil => simp
  | first hmem =>
      intro s hs
      rw [List.mem_singleton.mp hs]
      exact ⟨none, hmem⟩
  | call hmem _ ih =>
      intro s hs
      rcases List.mem_cons.mp hs with rfl | hs
      · exact ⟨_, hmem⟩
      · exact ih s hs

/-- The frame on top of a stack opens another one. -/
theorem Linked.push (h : Linked opens c stack) (hmem : ⟨c, s, stack.head?⟩ ∈ opens) :
    Linked opens c (s :: stack) := by
  cases stack with
  | nil => exact .first hmem
  | cons p stack => exact .call hmem h

/-- Keys are not used twice. -/
theorem nodup_keys_concat {o : Opening C S} (h : (opens.map Opening.key).Nodup)
    (hnew : o.key ∉ opens.map Opening.key) : ((opens ++ [o]).map Opening.key).Nodup := by
  rw [List.map_append, List.map_singleton]
  apply List.Nodup.append h (List.nodup_singleton _)
  intro key hkey hkey'
  rw [List.mem_singleton.mp hkey'] at hkey
  exact hnew hkey

variable [LinearOrder S] {next next' : S}

/-- The stack of a context and the next number it will use. -/
structure Frames (opens : List (Opening C S)) (c : C) (stack : List S) (next : S) : Prop where
  descending : stack.Pairwise (· > ·)
  below : ∀ s ∈ stack, s < next
  linked : Linked opens c stack
  used : ∀ o ∈ opens, o.context = c → o.frame < next

namespace Frames

/-- A context that has opened nothing. -/
theorem fresh (hnone : ∀ o ∈ opens, o.context ≠ c) : Frames opens c [] next where
  descending := .nil
  below := by simp
  linked := .nil
  used := fun o ho hctx => absurd hctx (hnone o ho)

theorem push (h : Frames opens c stack next) (hlt : next < next') :
    Frames (opens ++ [⟨c, next, stack.head?⟩]) c (next :: stack) next' where
  descending := List.pairwise_cons.mpr ⟨h.below, h.descending⟩
  below := by
    intro s hs
    rcases List.mem_cons.mp hs with rfl | hs
    · exact hlt
    · exact (h.below s hs).trans hlt
  linked := (h.linked.mono (List.subset_append_left _ _)).push
    (List.mem_append_right _ (List.mem_singleton.mpr rfl))
  used := by
    intro o ho hctx
    rcases List.mem_append.mp ho with ho | ho
    · exact (h.used o ho hctx).trans hlt
    · rw [List.mem_singleton.mp ho]
      exact hlt

theorem pop (h : Frames opens c (s :: stack) next) : Frames opens c stack next where
  descending := h.descending.of_cons
  below := fun r hr => h.below r (List.mem_cons_of_mem _ hr)
  linked := h.linked.tail
  used := h.used

/-- Openings of other contexts do not matter. -/
theorem append (h : Frames opens c stack next) {new : List (Opening C S)}
    (hother : ∀ o ∈ new, o.context ≠ c) : Frames (opens ++ new) c stack next where
  descending := h.descending
  below := h.below
  linked := h.linked.mono (List.subset_append_left _ _)
  used := by
    intro o ho hctx
    rcases List.mem_append.mp ho with ho | ho
    · exact h.used o ho hctx
    · exact absurd hctx (hother o ho)

/-- The frame below the top opened it. -/
theorem caller (h : Frames opens c (s :: p :: stack) next) : ⟨c, s, some p⟩ ∈ opens := by
  cases h.linked with
  | call hmem _ => exact hmem

/-- The only frame was opened by nobody. -/
theorem first (h : Frames opens c [s] next) : ⟨c, s, none⟩ ∈ opens := by
  cases h.linked with
  | first hmem => exact hmem

/-- The next number was not used by the context. -/
theorem key_notMem (h : Frames opens c stack next) : (c, next) ∉ opens.map Opening.key := by
  intro hmem
  obtain ⟨o, ho, hkey⟩ := List.mem_map.mp hmem
  obtain ⟨hctx, hframe⟩ := Prod.mk.inj hkey
  exact (h.used o ho hctx).ne hframe

end Frames

end CallTree
