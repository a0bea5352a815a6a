/-
BcosScheduler/Lib/Dfs.lean

Three-colour depth-first search on an arbitrary directed graph given by its
out-edge lists, with the early termination of a search that only asks for a
back edge: once a back edge was seen, newly discovered vertices are coloured
but no longer expanded.

Main result (`backEdge_iff`): started on an all-white graph with enough fuel,
the search sees a back edge iff a directed cycle is reachable from its root.
The two directions rest on two different invariants:

* soundness — every grey vertex reaches the vertex being expanded, so an
  edge into a grey vertex closes a cycle;
* completeness — as long as no back edge was seen, every black vertex is
  *accessible* for the reversed edge relation (`Acc`), because a vertex turns
  black only after all its successors did.  Accessibility excludes cycles and,
  more generally, infinite walks, with no counting of vertices.

The order of the out-edge lists is not used anywhere.
-/
import Mathlib.Logic.Relation
import Mathlib.Data.Finset.Card

namespace Dfs

variable {V : Type*}

/-- Colours of a vertex during the search. -/
inductive Color
  | white
  | gray
  | black
  deriving DecidableEq, Repr

/-- State of the search: the colour map and whether a back edge was seen. -/
structure State (V : Type*) where
  color : V → Color
  backEdge : Bool

/-- All vertices white, nothing seen. -/
def State.init : State V := ⟨fun _ => .white, false⟩

/-- The edge relation of the out-edge lists. -/
def Edge (succ : V → List V) (u v : V) : Prop := v ∈ succ u

/-- No infinite walk starts at `u`. -/
def Grounded (succ : V → List V) (u : V) : Prop := Acc (fun v u => Edge succ u v) u

variable [DecidableEq V]

/-- Give `u` the colour `c`. -/
def State.paint (st : State V) (u : V) (c : Color) : State V :=
  { st with color := Function.update st.color u c }

/-- One out-edge: expand a white target with `expand`, record a grey one as
a back edge, pass over a black one. -/
def examineEdge (expand : V → State V → State V) (st : State V) (v : V) : State V :=
  match st.color v with
  | .white => expand v st
  | .gray => { st with backEdge := true }
  | .black => st

/-- Depth-first visit of `u`, which is expanded only while no back edge was
seen.  The fuel bounds the depth of the search. -/
def depthFirstVisit (succ : V → List V) : Nat → V → State V → State V
  | 0, _, st => st
  | fuel + 1, u, st =>
      let st := st.paint u .gray
      -- early termination: a vertex discovered after a back edge has no out-edges left
      let out := if st.backEdge then [] else succ u
      (out.foldl (examineEdge (depthFirstVisit succ fuel)) st).paint u .black

/-! ### Painting -/

@[simp] theorem paint_color_self (st : State V) (u : V) (c : Color) :
    (st.paint u c).color u = c := by
  simp [State.paint]

theorem paint_color_of_ne (st : State V) {u v : V} (c : Color) (h : v ≠ u) :
    (st.paint u c).color v = st.color v := by
  simp [State.paint, h]

@[simp] theorem paint_backEdge (st : State V) (u : V) (c : Color) :
    (st.paint u c).backEdge = st.backEdge := rfl

/-! ### What a search may change

A search turns white vertices black and nothing else, and never forgets a
back edge. -/

/-- `r` is a later state of a search that was in `st`. -/
structure Grows (st r : State V) : Prop where
  gray : ∀ v, st.color v = .gray ↔ r.color v = .gray
  black : ∀ v, st.color v = .black → r.color v = .black
  backEdge : r.backEdge = false → st.backEdge = false

omit [DecidableEq V] in
theorem Grows.refl (st : State V) : Grows st st :=
  ⟨fun _ => Iff.rfl, fun _ h => h, fun h => h⟩

omit [DecidableEq V] in
theorem Grows.trans {a b c : State V} (h₁ : Grows a b) (h₂ : Grows b c) : Grows a c :=
  ⟨fun v => (h₁.gray v).trans (h₂.gray v), fun v h => h₂.black v (h₁.black v h),
    fun h => h₁.backEdge (h₂.backEdge h)⟩

omit [DecidableEq V] in
/-- What is white afterwards was white before. -/
theorem Grows.white {st r : State V} (h : Grows st r) {v : V}
    (hv : r.color v = .white) : st.color v = .white := by
  rcases hc : st.color v with _ | _ | _
  · rfl
  · rw [(h.gray v).mp hc] at hv
    cases hv
  · rw [h.black v hc] at hv
    cases hv

omit [DecidableEq V] in
theorem examineEdge_grows {expand : V → State V → State V}
    (hexp : ∀ v st, st.color v = .white → Grows st (expand v st)) (st : State V) (v : V) :
    Grows st (examineEdge expand st v) := by
  unfold examineEdge
  rcases hc : st.color v with _ | _ | _
  · exact hexp v st hc
  · exact ⟨fun _ => Iff.rfl, fun _ h => h, fun h => by cases h⟩
  · exact Grows.refl st

omit [DecidableEq V] in
theorem foldl_examineEdge_grows {expand : V → State V → State V}
    (hexp : ∀ v st, st.color v = .white → Grows st (expand v st)) (out : List V) :
    ∀ st : State V, Grows st (out.foldl (examineEdge expand) st) := by
  induction out with
  | nil => exact fun st => Grows.refl st
  | cons v rest ih =>
      intro st
      exact (examineEdge_grows hexp st v).trans (ih _)

/-- The visit of a white vertex only turns white vertices black. -/
theorem depthFirstVisit_grows (succ : V → List V) (fuel : Nat) :
    ∀ u (st : State V), st.color u = .white → Grows st (depthFirstVisit succ fuel u st) := by
  induction fuel with
  | zero => exact fun u st _ => Grows.refl st
  | succ fuel ih =>
      intro u st hu
      have hfold := foldl_examineEdge_grows ih
        (if (st.paint u .gray).backEdge then [] else succ u) (st.paint u .gray)
      -- only the root is painted twice, white to grey to black; the rest is the fold
      refine ⟨fun v => ?_, fun v hv => ?_, fun h => ?_⟩
      · by_cases hvu : v = u
        · subst hvu
          simp [depthFirstVisit, hu]
        · have hg := hfold.gray v
          rw [paint_color_of_ne st .gray hvu] at hg
          simpa only [depthFirstVisit, paint_color_of_ne _ _ hvu] using hg
      · by_cases hvu : v = u
        · subst hvu
          simp [depthFirstVisit]
        · have hb := hfold.black v (by rw [paint_color_of_ne st .gray hvu]; exact hv)
          simpa only [depthFirstVisit, paint_color_of_ne _ _ hvu] using hb
      · exact hfold.backEdge h

/-! ### Completeness -/

/-- Every black vertex is grounded. -/
def BlackGrounded (succ : V → List V) (st : State V) : Prop :=
  ∀ v, st.color v = .black → Grounded succ v

/-- The vertices of `U` that are still white. -/
def whites (U : Finset V) (st : State V) : Finset V := U.filter fun v => st.color v = .white

omit [DecidableEq V] in
theorem Grows.whites_card_le {st r : State V} (h : Grows st r) (U : Finset V) :
    (whites U r).card ≤ (whites U st).card := by
  apply Finset.card_le_card
  intro v hv
  simp only [whites, Finset.mem_filter] at hv ⊢
  exact ⟨hv.1, h.white hv.2⟩

theorem whites_paint_lt {U : Finset V} {st : State V} {u : V} (huU : u ∈ U)
    (hu : st.color u = .white) :
    (whites U (st.paint u .gray)).card < (whites U st).card := by
  refine Finset.card_lt_card ⟨fun v hv => ?_, fun hsub => ?_⟩
  · simp only [whites, Finset.mem_filter] at hv ⊢
    by_cases hvu : v = u
    · subst hvu
      exact ⟨hv.1, hu⟩
    · rw [paint_color_of_ne st .gray hvu] at hv
      exact hv
  · have hmem : u ∈ whites U (st.paint u .gray) :=
      hsub (Finset.mem_filter.mpr ⟨huU, hu⟩)
    simp [whites] at hmem

section Complete

variable {succ : V → List V} {U : Finset V}

/-- If no back edge was seen while the out-edges `out` were examined, every
target of `out` is black at the end and all black vertices are grounded. -/
theorem foldl_examineEdge_grounded {fuel : Nat}
    (ih : ∀ u (st : State V), u ∈ U → st.color u = .white → (whites U st).card ≤ fuel →
      BlackGrounded succ st → (depthFirstVisit succ fuel u st).backEdge = false →
      (depthFirstVisit succ fuel u st).color u = .black ∧
        BlackGrounded succ (depthFirstVisit succ fuel u st))
    (out : List V) : ∀ st : State V, (∀ v ∈ out, v ∈ U) → (whites U st).card ≤ fuel →
      BlackGrounded succ st →
      (out.foldl (examineEdge (depthFirstVisit succ fuel)) st).backEdge = false →
      (∀ v ∈ out, (out.foldl (examineEdge (depthFirstVisit succ fuel)) st).color v = .black) ∧
        BlackGrounded succ (out.foldl (examineEdge (depthFirstVisit succ fuel)) st) := by
  induction out with
  | nil => exact fun st _ _ hb _ => ⟨by simp, hb⟩
  | cons v rest ihout =>
      intro st hU hw hb hback
      have hgrow := depthFirstVisit_grows succ fuel
      have hstep := examineEdge_grows hgrow st v
      have hrest := foldl_examineEdge_grows hgrow rest
        (examineEdge (depthFirstVisit succ fuel) st v)
      rw [List.foldl_cons] at hback ⊢
      -- the first edge saw no back edge either
      have hback₁ : (examineEdge (depthFirstVisit succ fuel) st v).backEdge = false :=
        hrest.backEdge hback
      have hfirst : (examineEdge (depthFirstVisit succ fuel) st v).color v = .black ∧
          BlackGrounded succ (examineEdge (depthFirstVisit succ fuel) st v) := by
        unfold examineEdge at hback₁ ⊢
        rcases hc : st.color v with _ | _ | _
        · simp only [hc] at hback₁ ⊢
          exact ih v st (hU v (by simp)) hc hw hb hback₁
        · simp [hc] at hback₁
        · simp only
          exact ⟨hc, hb⟩
      obtain ⟨hblack, hground⟩ := ihout _ (fun w hw' => hU w (by simp [hw']))
        ((hstep.whites_card_le U).trans hw) hfirst.2 hback
      refine ⟨fun w hw' => ?_, hground⟩
      rcases List.mem_cons.mp hw' with rfl | hw'
      · exact hrest.black _ hfirst.1
      · exact hblack w hw'

/-- A visit that saw no back edge leaves its root black and all black vertices
grounded: a vertex turns black after all its successors did. -/
theorem depthFirstVisit_grounded (hclosed : ∀ u ∈ U, ∀ v ∈ succ u, v ∈ U) (fuel : Nat) :
    ∀ u (st : State V), u ∈ U → st.color u = .white → (whites U st).card ≤ fuel →
      BlackGrounded succ st → (depthFirstVisit succ fuel u st).backEdge = false →
      (depthFirstVisit succ fuel u st).color u = .black ∧
        BlackGrounded succ (depthFirstVisit succ fuel u st) := by
  induction fuel with
  | zero =>
      -- without fuel there is no white vertex, and the root is one
      intro u st huU hu hw
      have hpos := whites_paint_lt huU hu
      omega
  | succ fuel ih =>
      intro u st huU hu hw hb hback
      refine ⟨by simp [depthFirstVisit], ?_⟩
      have hfold := foldl_examineEdge_grows (depthFirstVisit_grows succ fuel)
        (if (st.paint u .gray).backEdge then [] else succ u) (st.paint u .gray)
      have hback₀ : (st.paint u .gray).backEdge = false := hfold.backEdge hback
      have hpaint : BlackGrounded succ (st.paint u .gray) := by
        intro v hv
        by_cases hvu : v = u
        · subst hvu
          simp at hv
        · exact hb v (by rwa [paint_color_of_ne st .gray hvu] at hv)
      -- painting the root grey pays for one unit of fuel
      have hlt := whites_paint_lt huU hu
      simp only [depthFirstVisit, hback₀, Bool.false_eq_true, if_false,
        paint_backEdge] at hback ⊢
      obtain ⟨hblack, hground⟩ := foldl_examineEdge_grounded ih (succ u)
        (st.paint u .gray) (hclosed u huU) (by omega) hpaint hback
      intro v hv
      by_cases hvu : v = u
      · -- the root is grounded because all its successors are black by now
        subst hvu
        exact Acc.intro v fun w hw' => hground w (hblack w hw')
      · exact hground v (by rwa [paint_color_of_ne _ .black hvu] at hv)

end Complete

/-! ### Soundness -/

/-- A directed cycle is reachable from `u`. -/
def CycleFrom (succ : V → List V) (u : V) : Prop :=
  ∃ w, Relation.ReflTransGen (Edge succ) u w ∧ Relation.TransGen (Edge succ) w w

omit [DecidableEq V] in
theorem CycleFrom.head {succ : V → List V} {u v : V} (he : Edge succ u v)
    (h : CycleFrom succ v) : CycleFrom succ u := by
  obtain ⟨w, hr, hc⟩ := h
  exact ⟨w, Relation.ReflTransGen.head he hr, hc⟩

omit [DecidableEq V] in
/-- No cycle is reachable from a grounded vertex. -/
theorem Grounded.not_cycleFrom {succ : V → List V} {u : V} (h : Grounded succ u) :
    ¬ CycleFrom succ u := by
  induction h with
  | intro u _ ih =>
      rintro ⟨w, hr, hc⟩
      rcases Relation.ReflTransGen.cases_head hr with rfl | ⟨v, he, hr'⟩
      · -- the cycle passes through `u` itself
        obtain ⟨v, he, hr'⟩ := Relation.TransGen.head'_iff.mp hc
        exact ih v he ⟨u, hr', hc⟩
      · exact ih v he ⟨w, hr', hc⟩

/-- All grey vertices reach `u`. -/
def GrayReach (succ : V → List V) (st : State V) (u : V) : Prop :=
  ∀ g, st.color g = .gray → Relation.ReflTransGen (Edge succ) g u

theorem foldl_examineEdge_sound {succ : V → List V} {fuel : Nat}
    (ih : ∀ u (st : State V), st.color u = .white → GrayReach succ st u →
      st.backEdge = false → (depthFirstVisit succ fuel u st).backEdge = true →
      CycleFrom succ u) (u : V) (out : List V) :
    ∀ st : State V, (∀ v ∈ out, Edge succ u v) → GrayReach succ st u →
      st.backEdge = false →
      (out.foldl (examineEdge (depthFirstVisit succ fuel)) st).backEdge = true →
      CycleFrom succ u := by
  induction out with
  | nil =>
      intro st _ _ h₀ h₁
      rw [List.foldl_nil, h₀] at h₁
      cases h₁
  | cons v rest ihout =>
      intro st hedge hgray h₀ h₁
      have huv : Edge succ u v := hedge v (by simp)
      have hstep := examineEdge_grows (depthFirstVisit_grows succ fuel) st v
      rw [List.foldl_cons] at h₁
      -- the back edge was seen behind the first edge or behind a later one
      rcases hfound : (examineEdge (depthFirstVisit succ fuel) st v).backEdge with _ | _
      · refine ihout _ (fun w hw => hedge w (by simp [hw])) (fun g hg => ?_) hfound h₁
        exact hgray g ((hstep.gray g).mpr hg)
      · unfold examineEdge at hfound
        rcases hc : st.color v with _ | _ | _
        · simp only [hc] at hfound
          exact (ih v st hc (fun g hg => (hgray g hg).tail huv) h₀ hfound).head huv
        · -- an edge into a grey vertex closes a cycle through `u`
          have hvu : Relation.ReflTransGen (Edge succ) v u := hgray v hc
          exact ⟨u, Relation.ReflTransGen.refl, Relation.TransGen.head' huv hvu⟩
        · simp only [hc] at hfound
          rw [h₀] at hfound
          cases hfound

theorem depthFirstVisit_sound (succ : V → List V) (fuel : Nat) :
    ∀ u (st : State V), st.color u = .white → GrayReach succ st u →
      st.backEdge = false → (depthFirstVisit succ fuel u st).backEdge = true →
      CycleFrom succ u := by
  induction fuel with
  | zero =>
      intro u st _ _ h₀ h₁
      rw [depthFirstVisit, h₀] at h₁
      cases h₁
  | succ fuel ih =>
      intro u st hu hgray h₀ h₁
      simp only [depthFirstVisit, paint_backEdge, h₀, Bool.false_eq_true, if_false] at h₁
      refine foldl_examineEdge_sound ih u (succ u) (st.paint u .gray) (fun v hv => hv)
        (fun g hg => ?_) h₀ h₁
      by_cases hgu : g = u
      · subst hgu
        exact Relation.ReflTransGen.refl
      · exact hgray g (by rwa [paint_color_of_ne st .gray hgu] at hg)

/-! ### The search from an all-white graph -/

/-- A search that saw no back edge started at a grounded vertex. -/
theorem grounded_of_backEdge_false {succ : V → List V} {U : Finset V}
    (hclosed : ∀ u ∈ U, ∀ v ∈ succ u, v ∈ U) {u : V} (hu : u ∈ U) {fuel : Nat}
    (hfuel : U.card ≤ fuel)
    (h : (depthFirstVisit succ fuel u State.init).backEdge = false) :
    Grounded succ u := by
  have hw : (whites U State.init).card ≤ fuel :=
    (Finset.card_filter_le _ _).trans hfuel
  obtain ⟨hblack, hground⟩ := depthFirstVisit_grounded hclosed fuel u State.init hu rfl hw
    (fun v hv => by cases hv) h
  exact hground u hblack

/-- **Back-edge detection is exact**: on an all-white graph the search sees a
back edge iff a directed cycle is reachable from its root. -/
theorem backEdge_iff {succ : V → List V} {U : Finset V}
    (hclosed : ∀ u ∈ U, ∀ v ∈ succ u, v ∈ U) {u : V} (hu : u ∈ U) {fuel : Nat}
    (hfuel : U.card ≤ fuel) :
    (depthFirstVisit succ fuel u State.init).backEdge = true ↔ CycleFrom succ u := by
  constructor
  · intro h
    exact depthFirstVisit_sound succ fuel u State.init rfl (fun g hg => by cases hg) rfl h
  · intro h
    by_contra hne
    rw [Bool.not_eq_true] at hne
    exact (grounded_of_backEdge_false hclosed hu hfuel hne).not_cycleFrom h

end Dfs
