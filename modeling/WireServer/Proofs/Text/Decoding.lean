import WireServer.Proofs.Text.WellFormed
import WireServer.Text.Utf8Decode

/-! Reading the bytes of a text gives the text back. -/

namespace WireServer.Utf8

/-! ### Pieces of a well-formed text -/

def Piece.IsCharacter (p : Piece) : Prop := ∃ bs, p = .character bs

theorem faultIn_eq_none {ps : List Piece} (h : ∀ p ∈ ps, p.IsCharacter) (i : Nat) :
    faultIn i ps = none := by
  induction ps generalizing i with
  | nil => rfl
  | cons p ps ih =>
    obtain ⟨bs, rfl⟩ := h p List.mem_cons_self
    exact ih (fun q hq => h q (List.mem_cons_of_mem _ hq)) _

/-- A byte that fits leaves nothing broken: it goes on with the piece that is held, or ends it as a
character. -/
theorem splitByte_of_step {s t : State} {b : UInt8} {held : Bytes} {done : List Piece}
    (hstep : step s b = some t) (hheld : held = [] ↔ s = .boundary)
    (hdone : ∀ p ∈ done, p.IsCharacter) :
    ∃ held' done', splitByte (s, held, done) b = (t, held', done') ∧
      (held' = [] ↔ t = .boundary) ∧ ∀ p ∈ done', p.IsCharacter := by
  have hmore (bs : Bytes) : ∀ p ∈ Piece.character bs :: done, p.IsCharacter := by
    simpa [Piece.IsCharacter] using hdone
  cases held with
  | nil =>
    obtain rfl : s = .boundary := hheld.1 rfl
    have hlead : lead b = some t := hstep
    rw [splitByte, startPiece, hlead]
    cases t with
    | boundary => exact ⟨_, _, rfl, by simp, hmore _⟩
    | _ => exact ⟨_, _, rfl, by simp, hdone⟩
  | cons a held =>
    rw [splitByte.eq_2 _ _ _ _ (by simp), hstep]
    cases t with
    | boundary => exact ⟨_, _, rfl, by simp, hmore _⟩
    | _ => exact ⟨_, _, rfl, by simp, hdone⟩

theorem foldl_splitByte {s : State} {bs held : Bytes} {done : List Piece}
    (hwalk : walk s bs = (.boundary, [])) (hheld : held = [] ↔ s = .boundary)
    (hdone : ∀ p ∈ done, p.IsCharacter) :
    ∃ done', bs.foldl splitByte (s, held, done) = (.boundary, [], done') ∧
      ∀ p ∈ done', p.IsCharacter := by
  induction bs generalizing s held done with
  | nil =>
    obtain rfl : s = .boundary := congrArg Prod.fst hwalk
    exact ⟨done, by rw [hheld.2 rfl]; rfl, hdone⟩
  | cons b bs ih =>
    cases hstep : step s b with
    | none => simp [walk, hstep] at hwalk
    | some t =>
      rw [walk_cons bs hstep] at hwalk
      obtain ⟨held', done', hsplit, hheld', hdone'⟩ := splitByte_of_step hstep hheld hdone
      rw [List.foldl_cons, hsplit]
      exact ih hwalk hheld' hdone'

theorem faultIn_pieces {bs : Bytes} (h : WellFormed bs) : faultIn 0 (pieces bs) = none := by
  have hheld : ([] : Bytes) = [] ↔ State.boundary = .boundary := by simp
  have hnone : ∀ p ∈ ([] : List Piece), p.IsCharacter := nofun
  obtain ⟨done, hfold, hdone⟩ := foldl_splitByte ((walk_eq_boundary_iff bs).2 h) hheld hnone
  rw [pieces, hfold]
  exact faultIn_eq_none (by simpa using hdone) 0

/-! ### The bytes of a text -/

theorem wellFormed_ofString (s : String) : WellFormed (Bytes.ofString s) := by
  have hbytes (cs : List Char) :
      Bytes.ofString (String.ofList cs) = cs.flatMap String.utf8EncodeChar := by
    simp [Bytes.ofString, List.utf8Encode]
  exact ⟨s.toList, by rw [← hbytes, String.ofList_toList]⟩

theorem ofWellFormed_ofString (s : String) : ofWellFormed (Bytes.ofString s) = s := by
  have hread : String.fromUTF8? s.toUTF8 = some s := dif_pos s.isValidUTF8
  rw [ofWellFormed, Bytes.ofString, Array.toArray_toList, hread]
  rfl

theorem decode_ofString (s : String) : decode (Bytes.ofString s) = .ok s := by
  rw [decode, faultIn_pieces (wellFormed_ofString s), ofWellFormed_ofString]

end WireServer.Utf8
