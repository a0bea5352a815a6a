/-
BcosScheduler/Lib/BinaryHeap.lean

Binary heaps in a vector, the way a standard priority queue keeps them: the
children of position `i` are `2 i + 1` and `2 i + 2`, the least key is in
front, `push` appends and sifts up, `pop` swaps the front with the last
element, drops it, lets the new front sink to a leaf and sifts it up from there.

The key is a function, not a part of the element, so that a heap of pointers
can be spoken of whose keys live elsewhere.  Order facts are about positions
(`Le`); a swap of two positions moves them along `Equiv.swap`.
-/
import Mathlib.Data.List.Basic
import Mathlib.Data.List.Perm.Basic
import Mathlib.Logic.Equiv.Basic
import Mathlib.Order.Lattice
import Mathlib.Order.Nat

namespace BinaryHeap

variable {α β : Type*}

/-! ### Swapping two positions -/

/-- The list with the elements of two positions exchanged. -/
def swapAt (l : List α) (i j : Nat) : List α :=
  match l[i]?, l[j]? with
  | some a, some b => (l.set i b).set j a
  | _, _ => l

theorem swapAt_eq {l : List α} {i j : Nat} (hi : i < l.length) (hj : j < l.length) :
    swapAt l i j = (l.set i l[j]).set j l[i] := by
  simp only [swapAt, List.getElem?_eq_getElem hi, List.getElem?_eq_getElem hj]

theorem swapAt_perm (l : List α) (i j : Nat) : (swapAt l i j).Perm l := by
  by_cases hi : i < l.length
  · by_cases hj : j < l.length
    · rw [swapAt_eq hi hj]
      exact List.set_set_perm hi hj
    · rw [swapAt, List.getElem?_eq_none (not_lt.mp hj)]
      split
      next heq => cases heq
      next => exact .refl l
  · rw [swapAt, List.getElem?_eq_none (not_lt.mp hi)]

@[simp] theorem length_swapAt (l : List α) (i j : Nat) : (swapAt l i j).length = l.length :=
  (swapAt_perm l i j).length_eq

theorem getElem?_swapAt {l : List α} {i j : Nat} (hi : i < l.length) (hj : j < l.length)
    (k : Nat) : (swapAt l i j)[k]? = l[Equiv.swap i j k]? := by
  rw [swapAt_eq hi hj, Equiv.swap_apply_def]
  by_cases hkj : k = j
  · subst hkj
    rw [List.getElem?_set_self (by simpa using hj)]
    by_cases hki : k = i
    · subst hki
      simp [hi]
    · simp [hki, hi]
  · rw [List.getElem?_set_ne (Ne.symm hkj)]
    by_cases hki : k = i
    · subst hki
      simp [hi, hj]
    · rw [List.getElem?_set_ne (Ne.symm hki)]
      simp [hki, hkj]

/-! ### Order of positions -/

variable [LinearOrder β] (key : α → β)

/-- The element of position `i` is not after that of position `j`. -/
def Le (l : List α) (i j : Nat) : Prop :=
  ∀ a b, l[i]? = some a → l[j]? = some b → key a ≤ key b

/-- Heap order: no element is before its parent. -/
def Ordered (l : List α) : Prop := ∀ i, 0 < i → Le key l ((i - 1) / 2) i

variable {key} {l : List α} {i j k : Nat}

theorem Le.trans (hij : Le key l i j) (hjk : Le key l j k) (hj : j < l.length) :
    Le key l i k := by
  intro a c ha hc
  have hb : l[j]? = some l[j] := List.getElem?_eq_getElem hj
  exact (hij a l[j] ha hb).trans (hjk l[j] c hb hc)

theorem Le.of_length_le_right (h : l.length ≤ j) : Le key l i j := by
  intro a b _ hb
  rw [List.getElem?_eq_none h] at hb
  cases hb

theorem le_swapAt_iff (hi : i < l.length) (hj : j < l.length) {a b : Nat} :
    Le key (swapAt l i j) a b ↔ Le key l (Equiv.swap i j a) (Equiv.swap i j b) := by
  simp only [Le, getElem?_swapAt hi hj]

/-- Heap order reads the keys of the elements only. -/
theorem Ordered.congr {key' : α → β} (h : Ordered key l) (hkey : ∀ a ∈ l, key' a = key a) :
    Ordered key' l := by
  intro i hi a b ha hb
  rw [hkey a (List.mem_of_getElem? ha), hkey b (List.mem_of_getElem? hb)]
  exact h i hi a b ha hb

/-- The front of a heap is a least element. -/
theorem Ordered.front_le (h : Ordered key l) (i : Nat) : Le key l 0 i := by
  induction i using Nat.strongRecOn with
  | ind i ih =>
      rcases Nat.eq_zero_or_pos i with rfl | hi
      · intro a b ha hb
        rw [ha] at hb
        rw [Option.some.inj hb]
      · by_cases hlen : i < l.length
        · exact (ih ((i - 1) / 2) (by omega)).trans (h i hi) (by omega)
        · exact .of_length_le_right (not_lt.mp hlen)

/-! ### Sifting up -/

variable (key) in
/-- Exchange an element with its parent while it is before it. -/
def siftUp : Nat → List α → Nat → List α
  | 0, l, _ => l
  | fuel + 1, l, i =>
      match l[i]?, l[(i - 1) / 2]? with
      | some a, some p =>
          if key a < key p then siftUp fuel (swapAt l i ((i - 1) / 2)) ((i - 1) / 2) else l
      | _, _ => l

theorem siftUp_perm (fuel : Nat) (l : List α) (i : Nat) : (siftUp key fuel l i).Perm l := by
  induction fuel generalizing l i with
  | zero => exact .refl l
  | succ fuel ih =>
      unfold siftUp
      split
      · split_ifs
        · exact (ih _ _).trans (swapAt_perm l _ _)
        · exact .refl l
      · exact .refl l

/-- Only the edge into `i` may be out of order, and the parent of `i` is not
after the children of `i`. -/
structure UpReady (key : α → β) (l : List α) (i : Nat) : Prop where
  edges : ∀ j, 0 < j → j ≠ i → Le key l ((j - 1) / 2) j
  grand : ∀ j, 0 < j → (j - 1) / 2 = i → 0 < i → Le key l ((i - 1) / 2) j

theorem UpReady.ordered (h : UpReady key l i) (hi : 0 < i → Le key l ((i - 1) / 2) i) :
    Ordered key l := by
  intro j hj
  by_cases hji : j = i
  · subst hji
    exact hi hj
  · exact h.edges j hj hji

theorem UpReady.swapAt (h : UpReady key l i) (hi : 0 < i) (hlen : i < l.length)
    (hle : Le key l i ((i - 1) / 2)) : UpReady key (swapAt l i ((i - 1) / 2)) ((i - 1) / 2) := by
  have hp : (i - 1) / 2 < i := by omega
  have hplen : (i - 1) / 2 < l.length := hp.trans hlen
  constructor
  · intro j hj hjp
    rw [le_swapAt_iff hlen hplen, Equiv.swap_apply_def, Equiv.swap_apply_def]
    by_cases hji : j = i
    · -- the edge that was out of order
      subst hji
      rw [if_neg hp.ne, if_pos rfl, if_pos rfl]
      exact hle
    · rw [if_neg hji, if_neg hjp]
      by_cases hpi : (j - 1) / 2 = i
      · rw [if_pos hpi]
        exact h.grand j hj hpi hi
      · by_cases hpp : (j - 1) / 2 = (i - 1) / 2
        · rw [if_neg hpi, if_pos hpp]
          exact hle.trans (hpp ▸ h.edges j hj hji) hplen
        · rw [if_neg hpi, if_neg hpp]
          exact h.edges j hj hji
  · intro j hj hjp hp0
    rw [le_swapAt_iff hlen hplen, Equiv.swap_apply_of_ne_of_ne (by omega) (by omega)]
    have hup : Le key l (((i - 1) / 2 - 1) / 2) ((i - 1) / 2) := h.edges _ hp0 hp.ne
    by_cases hji : j = i
    · subst hji
      rw [Equiv.swap_apply_left]
      exact hup
    · rw [Equiv.swap_apply_of_ne_of_ne hji (by omega)]
      exact hup.trans (hjp ▸ h.edges j hj hji) hplen

theorem UpReady.siftUp {fuel : Nat} (h : UpReady key l i) (hfuel : i ≤ fuel) :
    Ordered key (siftUp key fuel l i) := by
  induction fuel generalizing l i with
  | zero => exact h.ordered fun hi => absurd hi (by omega)
  | succ fuel ih =>
      unfold BinaryHeap.siftUp
      split
      next a p ha hp =>
        split_ifs with hlt
        · have hle : Le key l i ((i - 1) / 2) := by
            intro a' p' ha' hp'
            rw [ha] at ha'
            rw [hp] at hp'
            cases ha'
            cases hp'
            exact hlt.le
          have hi : 0 < i := by
            rcases Nat.eq_zero_or_pos i with rfl | hi
            · rw [ha] at hp
              cases hp
              exact absurd hlt (lt_irrefl _)
            · exact hi
          have hlen : i < l.length := (List.getElem?_eq_some_iff.mp ha).1
          exact ih (h.swapAt hi hlen hle) (by omega)
        · apply h.ordered
          intro _ p' a' hp' ha'
          rw [ha] at ha'
          rw [hp] at hp'
          cases ha'
          cases hp'
          exact not_lt.mp hlt
      next hnone =>
        apply h.ordered
        intro _ p a hp ha
        exact absurd hp (hnone a p ha)

/-! ### Sinking a hole -/

variable (key) in
/-- The position of the child with the lesser key, the right one of two equals. -/
def lesserChild (l : List α) (i : Nat) : Nat :=
  match l[2 * i + 1]?, l[2 * i + 2]? with
  | some a, some b => if key a < key b then 2 * i + 1 else 2 * i + 2
  | _, _ => 2 * i + 1

variable (key) in
/-- Exchange an element with its lesser child down to a leaf, whatever the
element is; the position is where it comes to. -/
def sink : Nat → List α → Nat → List α × Nat
  | 0, l, i => (l, i)
  | fuel + 1, l, i =>
      if lesserChild key l i < l.length then
        sink fuel (swapAt l i (lesserChild key l i)) (lesserChild key l i)
      else (l, i)

theorem sink_perm (fuel : Nat) (l : List α) (i : Nat) : (sink key fuel l i).1.Perm l := by
  induction fuel generalizing l i with
  | zero => exact .refl l
  | succ fuel ih =>
      unfold sink
      split_ifs
      · exact (ih _ _).trans (swapAt_perm l _ _)
      · exact .refl l

theorem lesserChild_eq (key : α → β) (l : List α) (i : Nat) :
    lesserChild key l i = 2 * i + 1 ∨ lesserChild key l i = 2 * i + 2 := by
  unfold lesserChild
  split
  · split_ifs
    · exact Or.inl rfl
    · exact Or.inr rfl
  · exact Or.inl rfl

theorem parent_lesserChild (key : α → β) (l : List α) (i : Nat) :
    (lesserChild key l i - 1) / 2 = i := by
  rcases lesserChild_eq key l i with h | h
  · rw [h]
    omega
  · rw [h]
    omega

/-- If there is a child, there is a lesser one. -/
theorem lesserChild_lt (key : α → β) (hj : 0 < j) (hparent : (j - 1) / 2 = i)
    (hlen : j < l.length) : lesserChild key l i < l.length := by
  unfold lesserChild
  split
  next a b ha hb =>
    have hlt := (List.getElem?_eq_some_iff.mp hb).1
    split_ifs
    · omega
    · exact hlt
  next => omega

/-- The lesser child is not after any child. -/
theorem lesserChild_le (hj : 0 < j) (hparent : (j - 1) / 2 = i) :
    Le key l (lesserChild key l i) j := by
  have hcases : j = 2 * i + 1 ∨ j = 2 * i + 2 := by omega
  unfold lesserChild
  split
  next a b ha hb =>
    split_ifs with hlt
    · rcases hcases with rfl | rfl
      · intro a' a'' ha' ha''
        rw [ha'] at ha''
        rw [Option.some.inj ha'']
      · intro a' b' ha' hb'
        rw [ha] at ha'
        rw [hb] at hb'
        cases ha'
        cases hb'
        exact hlt.le
    · rcases hcases with rfl | rfl
      · intro b' a' hb' ha'
        rw [hb] at hb'
        rw [ha] at ha'
        cases hb'
        cases ha'
        exact not_lt.mp hlt
      · intro b' b'' hb' hb''
        rw [hb'] at hb''
        rw [Option.some.inj hb'']
  next hnone =>
    rcases hcases with rfl | rfl
    · intro a' a'' ha' ha''
      rw [ha'] at ha''
      rw [Option.some.inj ha'']
    · intro a b ha hb
      exact absurd hb (hnone a b ha)

/-- Only the edges at `i` may be out of order, and the parent of `i` is not after
the children of `i`. -/
structure Hole (key : α → β) (l : List α) (i : Nat) : Prop where
  edges : ∀ j, 0 < j → j ≠ i → (j - 1) / 2 ≠ i → Le key l ((j - 1) / 2) j
  grand : ∀ j, 0 < j → (j - 1) / 2 = i → 0 < i → Le key l ((i - 1) / 2) j

/-- A hole without children is ready to be sifted up. -/
theorem Hole.upReady (h : Hole key l i) (hleaf : l.length ≤ lesserChild key l i) :
    UpReady key l i := by
  refine ⟨fun j hj hji => ?_, h.grand⟩
  by_cases hparent : (j - 1) / 2 = i
  · apply Le.of_length_le_right
    by_contra hlen
    exact absurd (lesserChild_lt key hj hparent (not_le.mp hlen)) (not_lt.mpr hleaf)
  · exact h.edges j hj hji hparent

theorem Hole.swapAt (h : Hole key l i) (hlen : lesserChild key l i < l.length) :
    Hole key (swapAt l i (lesserChild key l i)) (lesserChild key l i) := by
  have hmin : ∀ j, 0 < j → (j - 1) / 2 = i → Le key l (lesserChild key l i) j :=
    fun j hj hparent => lesserChild_le hj hparent
  have hparent := parent_lesserChild key l i
  have hpos : 0 < lesserChild key l i := by
    rcases lesserChild_eq key l i with hc | hc <;> omega
  generalize lesserChild key l i = c at *
  have hic : i < c := by omega
  have hilen : i < l.length := hic.trans hlen
  constructor
  · intro j hj hjc hpc
    rw [le_swapAt_iff hilen hlen]
    by_cases hji : j = i
    · -- the child that came up is not before the parent of the hole
      subst hji
      rw [Equiv.swap_apply_left, Equiv.swap_apply_of_ne_of_ne (by omega) hpc]
      exact h.grand c hpos hparent hj
    · rw [Equiv.swap_apply_of_ne_of_ne hji hjc]
      by_cases hpi : (j - 1) / 2 = i
      · rw [hpi, Equiv.swap_apply_left]
        exact hmin j hj hpi
      · rw [Equiv.swap_apply_of_ne_of_ne hpi hpc]
        exact h.edges j hj hji hpi
  · intro j hj hjc _
    rw [le_swapAt_iff hilen hlen, hparent, Equiv.swap_apply_left,
      Equiv.swap_apply_of_ne_of_ne (by omega) (by omega)]
    exact hjc ▸ h.edges j hj (by omega) (by omega)

/-- A hole that has sunk is at a leaf. -/
theorem Hole.sink {fuel : Nat} (h : Hole key l i) (hfuel : l.length ≤ fuel + i) :
    UpReady key (sink key fuel l i).1 (sink key fuel l i).2 := by
  induction fuel generalizing l i with
  | zero =>
      apply h.upReady
      rcases lesserChild_eq key l i with hc | hc <;> omega
  | succ fuel ih =>
      unfold BinaryHeap.sink
      split_ifs with hlen
      · apply ih (h.swapAt hlen)
        rw [length_swapAt]
        rcases lesserChild_eq key l i with hc | hc <;> omega
      · exact h.upReady (not_lt.mp hlen)

theorem sink_le {fuel : Nat} (hi : i ≤ l.length) : (sink key fuel l i).2 ≤ l.length := by
  induction fuel generalizing l i with
  | zero => exact hi
  | succ fuel ih =>
      unfold sink
      split_ifs with hlen
      · exact (ih (by rw [length_swapAt]; exact hlen.le)).trans_eq (length_swapAt l _ _)
      · exact hi

/-! ### Push, top and pop -/

variable (key) in
/-- Append an element and sift it up. -/
def push (l : List α) (a : α) : List α := siftUp key l.length (l ++ [a]) l.length

/-- The least element. -/
def top (l : List α) : Option α := l.head?

variable (key) in
/-- Remove the front: swap it with the last element, drop it, let the new front
sink to a leaf and sift it up. -/
def pop (l : List α) : List α :=
  let sunk := sink key l.length (swapAt l 0 (l.length - 1)).dropLast 0
  siftUp key l.length sunk.1 sunk.2

theorem pop_perm_dropLast (key : α → β) (l : List α) :
    (pop key l).Perm (swapAt l 0 (l.length - 1)).dropLast :=
  (siftUp_perm _ _ _).trans (sink_perm _ _ _)

theorem push_perm (key : α → β) (l : List α) (a : α) : (push key l a).Perm (a :: l) :=
  (siftUp_perm _ _ _).trans (List.perm_append_singleton a l)

theorem Ordered.push (h : Ordered key l) (a : α) : Ordered key (push key l a) := by
  apply UpReady.siftUp _ le_rfl
  constructor
  · intro j hj hjl p c hp hc
    have hjlen : j < l.length := by
      have hlt := (List.getElem?_eq_some_iff.mp hc).1
      rw [List.length_append, List.length_singleton] at hlt
      omega
    rw [List.getElem?_append_left hjlen] at hc
    rw [List.getElem?_append_left (by omega)] at hp
    exact h j hj p c hp hc
  · intro j hj hjl _
    apply Le.of_length_le_right
    rw [List.length_append, List.length_singleton]
    omega

/-- A heap is its front and what `pop` leaves. -/
theorem pop_perm (key : α → β) {a : α} (h : top l = some a) : l.Perm (a :: pop key l) := by
  have hlen : 0 < l.length := List.length_pos_of_mem (List.mem_of_mem_head? h)
  have ha : l[0]? = some a := by rw [← List.head?_eq_getElem?]; exact h
  have hlast : (swapAt l 0 (l.length - 1))[l.length - 1]? = some a := by
    rw [getElem?_swapAt hlen (by omega), Equiv.swap_apply_right, ha]
  have hsplit : swapAt l 0 (l.length - 1) = (swapAt l 0 (l.length - 1)).dropLast ++ [a] := by
    have hget : (swapAt l 0 (l.length - 1)).getLast? = some a := by
      rw [List.getLast?_eq_getElem?, length_swapAt]
      exact hlast
    obtain ⟨l', hl'⟩ := List.getLast?_eq_some_iff.mp hget
    rw [hl', List.dropLast_concat]
  have hperm : l.Perm ((swapAt l 0 (l.length - 1)).dropLast ++ [a]) := by
    rw [← hsplit]
    exact (swapAt_perm _ _ _).symm
  exact hperm.trans ((List.perm_append_singleton a _).trans ((pop_perm_dropLast key l).symm.cons a))

theorem Ordered.pop (h : Ordered key l) : Ordered key (pop key l) := by
  rcases Nat.eq_zero_or_pos l.length with hzero | hlen
  · rw [List.length_eq_zero_iff.mp hzero]
    intro i hi a b ha
    simp [BinaryHeap.pop, BinaryHeap.siftUp, BinaryHeap.sink, BinaryHeap.swapAt] at ha
  · have hrest : (swapAt l 0 (l.length - 1)).dropLast.length = l.length - 1 := by
      rw [List.length_dropLast, length_swapAt]
    have hhole : Hole key (swapAt l 0 (l.length - 1)).dropLast 0 := by
      refine ⟨fun j hj _ hj0 p c hp hc => ?_, fun j _ _ hpos => absurd hpos (lt_irrefl 0)⟩
      have hjlen : j < l.length - 1 := by
        have hlt := (List.getElem?_eq_some_iff.mp hc).1
        rwa [hrest] at hlt
      -- neither end of the edge was moved
      have hkeep : ∀ k, k ≠ 0 → k < l.length - 1 →
          (swapAt l 0 (l.length - 1)).dropLast[k]? = l[k]? := by
        intro k hk hklen
        rw [List.getElem?_dropLast, if_pos (by rw [length_swapAt]; exact hklen),
          getElem?_swapAt hlen (by omega), Equiv.swap_apply_of_ne_of_ne hk (by omega)]
      rw [hkeep j (by omega) hjlen] at hc
      rw [hkeep _ hj0 (by omega)] at hp
      exact h j hj p c hp hc
    apply UpReady.siftUp (hhole.sink (by omega))
    exact (sink_le (Nat.zero_le _)).trans (by omega)

/-- `top` is a least element. -/
theorem Ordered.top_le (h : Ordered key l) {a b : α} (ha : top l = some a) (hb : b ∈ l) :
    key a ≤ key b := by
  obtain ⟨i, hi⟩ := List.mem_iff_getElem?.mp hb
  have ha0 : l[0]? = some a := by rw [← List.head?_eq_getElem?]; exact ha
  exact h.front_le i a b ha0 hi

end BinaryHeap
