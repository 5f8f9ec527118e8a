import Stencil.Proofs.Frame

/-!
# Numbered frames

References are given out one after another while several frames are being filled.  `Numbered` says of
a stretch of that work that the numbers given out during it are exactly those that were marked, and
that each was marked where its spots are.  Stretches can be joined (`Numbered.append`), and a frame
that was filled during one may be handed on to a spot (`Numbered.close`).
-/

namespace Stencil.Render

/-- A frame whose own markers and spots fit together. -/
structure Frame.Sound (f : Frame) : Prop where
  /-- Markers are numbered in markup order. -/
  ordered : f.markers.Pairwise (· < ·)
  /-- Spots are listed in the order of the nodes they are about. -/
  references : (f.spots.filterMap Spot.reference).Pairwise (· ≤ ·)
  /-- The node that a spot is about is marked in the frame of the spot. -/
  anchored : ∀ s ∈ f.spots, ∀ r ∈ s.reference, r ∈ f.markers

/-- How often a number is marked in some frames. -/
def markCount (frames : List Frame) (n : Nat) : Nat := (frames.flatMap Frame.markers).count n

@[simp] theorem markCount_nil (n : Nat) : markCount [] n = 0 := rfl

@[simp] theorem markCount_cons (f : Frame) (rest : List Frame) (n : Nat) :
    markCount (f :: rest) n = f.markers.count n + markCount rest n := by
  simp [markCount]

@[simp] theorem markCount_append (a b : List Frame) (n : Nat) :
    markCount (a ++ b) n = markCount a n + markCount b n := by
  simp [markCount]

/-- What was added while the references from `start` to `stop` were given out: the markers and spots
of the frame that was being filled, and all frames that were filled besides. -/
structure Numbered (start : Nat) (markers : List Nat) (spots : List Spot) (loose : List Frame)
    (stop : Nat) : Prop where
  le : start ≤ stop
  ordered : markers.Pairwise (· < ·)
  references : (spots.filterMap Spot.reference).Pairwise (· ≤ ·)
  anchored : ∀ s ∈ spots, ∀ r ∈ s.reference, r ∈ markers
  /-- Every reference is marked once. -/
  once : ∀ n, markers.count n + markCount (spotFrames spots) n + markCount loose n =
    if start ≤ n ∧ n < stop then 1 else 0
  sound : ∀ f ∈ spotFrames spots ++ loose, f.Sound

namespace Numbered

/-- Nothing was added. -/
theorem refl (n : Nat) : Numbered n [] [] [] n where
  le := Nat.le_refl n
  ordered := .nil
  references := .nil
  anchored := by simp
  once := by
    intro k
    rw [if_neg (by omega)]
    simp [spotFrames]
  sound := by simp [spotFrames]

/-- Markers are numbers that were given out. -/
theorem mem_range {start stop : Nat} {markers : List Nat} {spots : List Spot} {loose : List Frame}
    (h : Numbered start markers spots loose stop) {n : Nat} (hn : n ∈ markers) :
    start ≤ n ∧ n < stop := by
  have hpos : 0 < markers.count n := List.count_pos_iff.mpr hn
  have honce := h.once n
  split at honce
  · assumption
  · omega

/-- References of spots are numbers that were given out. -/
theorem reference_range {start stop : Nat} {markers : List Nat} {spots : List Spot}
    {loose : List Frame} (h : Numbered start markers spots loose stop) {r : Nat}
    (hr : r ∈ spots.filterMap Spot.reference) : start ≤ r ∧ r < stop := by
  obtain ⟨s, hs, hsr⟩ := List.mem_filterMap.mp hr
  exact h.mem_range (h.anchored s hs r hsr)

/-- **Stretches can be joined.** -/
theorem append {start mid stop : Nat} {markers markers' : List Nat} {spots spots' : List Spot}
    {loose loose' : List Frame} (h : Numbered start markers spots loose mid)
    (h' : Numbered mid markers' spots' loose' stop) :
    Numbered start (markers ++ markers') (spots ++ spots') (loose ++ loose') stop where
  le := Nat.le_trans h.le h'.le
  ordered := by
    refine List.pairwise_append.mpr ⟨h.ordered, h'.ordered, ?_⟩
    intro a ha b hb
    have h₁ := h.mem_range ha
    have h₂ := h'.mem_range hb
    omega
  references := by
    rw [List.filterMap_append]
    refine List.pairwise_append.mpr ⟨h.references, h'.references, ?_⟩
    intro a ha b hb
    have h₁ := h.reference_range ha
    have h₂ := h'.reference_range hb
    omega
  anchored := by
    intro s hs r hr
    rcases List.mem_append.mp hs with hs | hs
    · exact List.mem_append_left _ (h.anchored s hs r hr)
    · exact List.mem_append_right _ (h'.anchored s hs r hr)
  once := by
    intro n
    have h₁ := h.once n
    have h₂ := h'.once n
    have hle := h.le
    have hle' := h'.le
    rw [List.count_append, spotFrames_append, markCount_append, markCount_append]
    split at h₁ <;> split at h₂ <;> split <;> omega
  sound := by
    intro f hf
    have h₁ := h.sound f
    have h₂ := h'.sound f
    simp only [spotFrames_append, List.mem_append] at hf h₁ h₂
    grind

/-- What was added to a frame that was empty is the frame. -/
theorem close {start stop : Nat} {f : Frame} {loose : List Frame}
    (h : Numbered start f.markers f.spots loose stop) :
    Numbered start [] [] (f.frames ++ loose) stop where
  le := h.le
  ordered := .nil
  references := .nil
  anchored := by simp
  once := by
    intro n
    have honce := h.once n
    rw [Frame.frames_eq]
    simp only [spotFrames, List.count_nil, markCount_nil, markCount_append, markCount_cons]
    omega
  sound := by
    intro g hg
    rw [Frame.frames_eq] at hg
    simp only [spotFrames, List.nil_append, List.cons_append, List.mem_cons] at hg
    rcases hg with rfl | hg
    · exact ⟨h.ordered, h.references, h.anchored⟩
    · exact h.sound g hg

/-- A reference that is marked before the frames inside its spots are filled. -/
theorem anchor {n stop : Nat} {spots : List Spot}
    (h : Numbered (n + 1) [] [] (spotFrames spots) stop)
    (hs : ∀ s ∈ spots, s.reference = some n) : Numbered n [n] spots [] stop where
  le := by
    have := h.le
    omega
  ordered := List.pairwise_singleton _ _
  references := by
    have hall : ∀ r ∈ spots.filterMap Spot.reference, r = n := by
      intro r hr
      obtain ⟨s, hmem, hsr⟩ := List.mem_filterMap.mp hr
      exact (Option.some.inj ((hs s hmem).symm.trans hsr)).symm
    apply List.pairwise_of_forall_mem_list
    intro a ha b hb
    rw [hall a ha, hall b hb]
  anchored := by
    intro s hmem r hr
    rw [hs s hmem] at hr
    exact List.mem_singleton.mpr (Option.some.inj hr).symm
  once := by
    intro k
    have honce := h.once k
    have hle := h.le
    simp only [List.count_nil, spotFrames, markCount_nil, List.count_singleton, beq_iff_eq]
      at honce ⊢
    split at honce <;> split <;> split <;> omega
  sound := by
    intro f hf
    exact h.sound f (by simpa [spotFrames] using hf)

/-- Spots that are about no node and hold no frames. -/
theorem unreferenced {n : Nat} {spots : List Spot} (hs : ∀ s ∈ spots, s.reference = none)
    (hf : spotFrames spots = []) : Numbered n [] spots [] n where
  le := Nat.le_refl n
  ordered := .nil
  references := by
    have hnone : spots.filterMap Spot.reference = [] := by
      rw [List.filterMap_eq_nil_iff]
      exact hs
    rw [hnone]
    exact .nil
  anchored := by
    intro s hmem r hr
    rw [hs s hmem] at hr
    simp at hr
  once := by
    intro k
    rw [if_neg (by omega), hf]
    simp
  sound := by simp [hf]

/-- A frame that renders nothing may be forgotten. -/
theorem forget {start stop : Nat} {markers : List Nat} {spots : List Spot} {f : Frame}
    {loose : List Frame} (h : Numbered start markers spots (f.frames ++ loose) stop)
    (hf : f.isEmpty = true) : Numbered start markers spots loose stop where
  le := h.le
  ordered := h.ordered
  references := h.references
  anchored := h.anchored
  once := by
    intro n
    have honce := h.once n
    have hframes : markCount f.frames n = 0 := by
      simp [Frame.frames_eq, Frame.markers_of_isEmpty hf, Frame.spots_of_isEmpty hf, spotFrames]
    rw [markCount_append, hframes] at honce
    omega
  sound := by
    intro g hg
    apply h.sound g
    simp only [List.mem_append] at hg ⊢
    grind

end Numbered

end Stencil.Render
