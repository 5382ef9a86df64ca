import WireServer.Proofs.Text.WellFormed

/-! A text may be checked piece by piece, wherever it is cut: the pieces come to what the whole
comes to, and the check fails at the very byte behind which nothing could help any more. -/

namespace WireServer.Utf8

/-- Pieces one after another, up to the first that does not fit. -/
def feedAll : State → List Bytes → State × Bool
  | s, [] => (s, true)
  | s, piece :: pieces =>
    match feed s piece with
    | (s, true) => feedAll s pieces
    | (s, false) => (s, false)

theorem isComplete_iff {s : State} : s.isComplete = true ↔ s = .boundary := by
  cases s <;> decide

theorem finish_last (s : State) : s.finish true = s.isComplete := rfl

theorem feed_eq (s : State) (piece : Bytes) :
    feed s piece = ((walk s piece).1, (walk s piece).2.isEmpty) := rfl

/-- Cutting a text changes nothing. -/
theorem feedAll_eq_feed (s : State) (pieces : List Bytes) :
    feedAll s pieces = feed s pieces.flatten := by
  induction pieces generalizing s with
  | nil => rfl
  | cons piece pieces ih =>
    rw [feedAll, feed_eq s piece, List.flatten_cons, feed_eq s (piece ++ pieces.flatten)]
    by_cases h : (walk s piece).2 = []
    · rw [walk_append s piece _ h, h]
      exact ih _
    · obtain ⟨b, unread, hunread⟩ := List.exists_cons_of_ne_nil h
      rw [walk_append_of_bad s piece _ h, hunread]
      rfl

/-- The check stops in front of a byte that does not fit the situation there. -/
theorem walk_split (s : State) (bs : Bytes) :
    ∃ good, bs = good ++ (walk s bs).2 ∧ walk s good = ((walk s bs).1, []) ∧
      ∀ b ∈ (walk s bs).2.head?, step (walk s bs).1 b = none := by
  induction bs generalizing s with
  | nil => exact ⟨[], rfl, rfl, nofun⟩
  | cons b bs ih =>
    cases hs : step s b with
    | none =>
      have hwalk : walk s (b :: bs) = (s, b :: bs) := by rw [walk, hs]
      rw [hwalk]
      refine ⟨[], rfl, rfl, fun c hc => ?_⟩
      cases hc
      exact hs
    | some t =>
      obtain ⟨good, hbs, hgood, hhead⟩ := ih t
      rw [walk_cons bs hs]
      exact ⟨b :: good, congrArg (b :: ·) hbs, by rw [walk_cons good hs, hgood], hhead⟩

/-- The first piece that does not fit. -/
theorem exists_misfit {s : State} {pieces : List Bytes} (h : (feedAll s pieces).2 = false) :
    ∃ fed piece unfed, pieces = fed ++ piece :: unfed ∧ (feedAll s fed).2 = true ∧
      (feed (feedAll s fed).1 piece).2 = false := by
  induction pieces generalizing s with
  | nil => cases h
  | cons first pieces ih =>
    rcases hf : feed s first with ⟨t, ⟨⟩ | ⟨⟩⟩
    · exact ⟨[], first, pieces, rfl, rfl, by rw [feedAll, hf]⟩
    · rw [feedAll, hf] at h
      obtain ⟨fed, piece, unfed, rfl, hfed, hpiece⟩ := ih h
      refine ⟨first :: fed, piece, unfed, rfl, ?_, ?_⟩
      · rwa [feedAll, hf]
      · rwa [feedAll, hf]

theorem feed_fits_iff (bs : Bytes) : (feed .boundary bs).2 = true ↔ Extensible bs := by
  rw [← walk_eq_nil_iff, feed_eq, List.isEmpty_iff]

theorem isComplete_feed_iff {bs : Bytes} (h : (feed .boundary bs).2 = true) :
    (feed .boundary bs).1.isComplete = true ↔ WellFormed bs := by
  rw [isComplete_iff, ← walk_eq_boundary_iff, feed_eq]
  rw [feed_eq, List.isEmpty_iff] at h
  exact ⟨fun hs => Prod.ext hs h, fun hw => congrArg Prod.fst hw⟩

/-- Pieces of a text fit exactly as long as they can still become an encoding of scalar values, and
at the first byte behind which they cannot, the check fails. As long as they fit, the text is
complete exactly if it is such an encoding, so that it may end there; before the last piece it may
end anywhere. The check of a whole text is one piece of it, and its end. -/
theorem feedAll_iff (pieces : List Bytes) :
    ((feedAll .boundary pieces).2 = true ↔ Extensible pieces.flatten) ∧
      ((feedAll .boundary pieces).2 = true →
        ((feedAll .boundary pieces).1.isComplete = true ↔ WellFormed pieces.flatten) ∧
        ((feedAll .boundary pieces).1.finish true = true ↔ WellFormed pieces.flatten)) ∧
      ((feedAll .boundary pieces).2 = false →
        ∃ fed good bad rest unfed, pieces = fed ++ (good ++ bad :: rest) :: unfed ∧
          (feedAll .boundary fed).2 = true ∧
          (walk (feedAll .boundary fed).1 (good ++ bad :: rest)).2 = bad :: rest ∧
          Extensible (fed.flatten ++ good) ∧ ¬ Extensible (fed.flatten ++ good ++ [bad])) ∧
      (∀ s : State, s.finish false = true) ∧
      (valid pieces.flatten = true ↔ (feed .boundary pieces.flatten).2 = true ∧
        (feed .boundary pieces.flatten).1.finish true = true) := by
  refine ⟨?_, fun h => ?_, fun h => ?_, fun _ => rfl, ?_⟩
  · rw [feedAll_eq_feed, feed_fits_iff]
  · rw [feedAll_eq_feed] at h ⊢
    rw [finish_last]
    exact ⟨isComplete_feed_iff h, isComplete_feed_iff h⟩
  · obtain ⟨fed, piece, unfed, rfl, hfed, hpiece⟩ := exists_misfit h
    rw [feed_eq] at hpiece
    obtain ⟨bad, rest, hunread⟩ := List.exists_cons_of_ne_nil (show
      (walk (feedAll .boundary fed).1 piece).2 ≠ [] by simpa [List.isEmpty_iff] using hpiece)
    obtain ⟨good, hsplit, hgood, hbad⟩ := walk_split (feedAll .boundary fed).1 piece
    rw [hunread] at hsplit hbad
    have hfed' : (walk .boundary fed.flatten).2 = [] := by
      rw [feedAll_eq_feed, feed_eq] at hfed
      simpa using hfed
    have hstate : (feedAll .boundary fed).1 = (walk .boundary fed.flatten).1 := by
      rw [feedAll_eq_feed, feed_eq]
    have hfits : walk .boundary (fed.flatten ++ good) =
        ((walk (feedAll .boundary fed).1 piece).1, []) := by
      rw [walk_append _ _ _ hfed', ← hstate, hgood]
    refine ⟨fed, good, bad, rest, unfed, by rw [hsplit], hfed, by rw [← hsplit, hunread], ?_, ?_⟩
    · rw [← walk_eq_nil_iff, hfits]
    · rw [← walk_eq_nil_iff, walk_append _ _ _ (by rw [hfits]), hfits, walk, hbad bad rfl]
      simp
  · rw [finish_last, valid_iff]
    refine ⟨fun hw => ?_, fun h => (isComplete_feed_iff h.1).1 h.2⟩
    have hfits : (feed .boundary pieces.flatten).2 = true :=
      (feed_fits_iff _).2 ⟨[], by rwa [List.append_nil]⟩
    exact ⟨hfits, (isComplete_feed_iff hfits).2 hw⟩

/-- A surrogate, cut inside, fails at its second byte. -/
example : feedAll .boundary [[0x61, 0xED], [], [0xA1, 0x80]] = (.afterED, false) := by decide

end WireServer.Utf8
