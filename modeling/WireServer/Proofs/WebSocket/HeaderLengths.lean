import WireServer.Proofs.WebSocket.HeaderPieces
import WireServer.Proofs.WebSocket.LengthForms

/-! The lengths of headers on both sides: what is written as the length of a frame is what the
parser reads, in the fewest bytes and from any pieces. -/

namespace WireServer.WebSocket

/-! ### In front of a frame -/

namespace Registers

variable {rules : Rules} {clean : Bool} {r q : Registers}

theorem phase_view (r : Registers) : r.view.phase = .op ↔ r.stage = .op := by
  cases hstage : r.stage <;> simp [view, hstage]

/-- In front of a frame there is no payload. -/
theorem Reached.payload_nil (h : Reached rules clean r) (hstage : r.stage = .op) :
    r.payload = [] := by
  induction h with
  | fresh => rfl
  | @parse clean r r' src rounds result h hparse ih =>
    obtain ⟨_, _, heq, -, hview, -⟩ := h.settled.ends hparse
    cases heq
    have hphase : r'.view.phase = .op := r'.phase_view.2 hstage
    have hsame : r'.view = r.view := by
      have hwithin := Parser.parse_within r.view src
      rw [hview] at hwithin
      exact hwithin.resolve_right fun hw => hw.begun hphase
    have hbefore : r.stage = .op := by
      rw [← phase_view, ← hsame, phase_view]
      exact hstage
    exact (congrArg Parser.payload hsame).trans (ih hbefore)
  | reset h ih => rfl

/-- A first byte that is taken. -/
theorem parseOp_taken {b : UInt8} (h : r.parseOp b = (q, .ok ())) :
    ∃ opcode message, q = (r.enterLen ⟨b⟩ opcode message).1 := by
  by_cases hreserved : Flags.reserved ⟨b⟩ = 0
  · cases hcode : Flags.opcode? ⟨b⟩ with
    | none =>
      simp only [parseOp, hreserved, hcode, ne_eq, not_true, if_false] at h
      cases h
    | some opcode =>
      rw [parseOp_eq r hreserved hcode] at h
      cases hadmits : r.view.admits ⟨b⟩ opcode with
      | error v =>
        rw [hadmits] at h
        cases h
      | ok message =>
        rw [hadmits] at h
        exact ⟨opcode, message, (congrArg Prod.fst h).symm⟩
  · cases (if_pos hreserved).symm.trans h

/-- The registers behind a first byte that is taken, with a header to come. -/
theorem Reached.begun (h : Reached rules clean r) (hstage : r.stage = .op) {flags : Flags}
    (hop : r.parseOp flags.bits = (q, .ok ())) {key : Option MaskKey}
    (hmasked : rules.requireMask = true → key.isSome = true) :
    Begun key q ∧ q.flags = flags ∧ q.rules = rules := by
  obtain ⟨opcode, message, rfl⟩ := parseOp_taken hop
  have hparsed : r.parsed = 0 := by
    have hsound := h.settled.sound
    rwa [Sound, hstage] at hsound
  exact ⟨⟨rfl, hparsed, h.payload_nil hstage, by rw [← h.rules_eq] at hmasked; exact hmasked⟩, rfl,
    h.rules_eq⟩

end Registers

namespace HeaderBuffer

open Registers (Awaits Reached Takes)

/-- The lengths of headers agree on both sides, for every first byte, every length of 64 bits and
every key or none. A header has at most 14 bytes. No bytes that a parser reads as the length are
fewer than those in the header, and it reads these too, unless its rules ask for a key or the frame
may not be that long. A parser in front of a frame that takes the first byte, and takes it without a
key if there is none, comes to the length and the key in any pieces, or refuses the length. The
header of a server's frame is as long as the count of its bytes says. -/
theorem header_lengths_agree (flags : Flags) (n : UInt64) (key : Option MaskKey) :
    (∃ header, new flags n key = .ok header ∧ header.bytes.length ≤ 14 ∧
      header.bytes = Header.encode flags n.toNat key ∧
      (∀ p : Parser, p.phase = .len →
        (∀ bs, p.ReadsLength bs n.toNat →
          (Header.lengthField key.isSome n.toNat).length ≤ bs.length) ∧
        ((p.rules.requireMask → key.isSome) → (p.opcode.isControl → n.toNat ≤ 125) →
          p.ReadsLength (Header.lengthField key.isSome n.toNat) n.toNat)) ∧
      ∀ rules clean (r q : Registers) cuts rounds, Reached rules clean r → r.stage = .op →
        r.parseOp flags.bits = (q, .ok ()) → (rules.requireMask → key.isSome) →
        cuts.flatten = header.bytes → 6 ≤ rounds →
        ∃ r' result, r.parseAll rounds cuts = some (.ok (r', result)) ∧
          Takes rules.maxPayload q n.toNat key header.bytes.length r' result) ∧
    ∀ size, ∃ header, server flags size = .ok header ∧
      header.bytes.length = Header.length size := by
  refine ⟨?_, server_eq flags⟩
  obtain ⟨header, hnew, hbytes⟩ := new_eq flags n key
  refine ⟨header, hnew, hbytes ▸ Header.length_encode flags n.toNat key, hbytes,
    fun p hphase => ⟨fun bs hbs => hbs.2.length_le hphase key.isSome, fun hmasked hcontrol =>
      Parser.readsLength_lengthField hphase hmasked hcontrol n.toNat_lt⟩, ?_⟩
  intro rules clean r q cuts rounds hreached hstage hop hmasked hcuts hrounds
  obtain ⟨hbegun, rfl, rfl⟩ := hreached.begun hstage hop hmasked
  have hawaits : Awaits q n.toNat key r cuts.flatten := by
    simp only [Awaits, hstage]
    exact ⟨hop, hcuts.trans hbytes⟩
  rw [← hcuts]
  exact Registers.parseAll_header hbegun n.toNat_lt hreached.settled hawaits hstage hrounds

/-- A masked frame with a length in 16 bits, cut inside of the length and of the key. -/
theorem header_lengths_agree_masked :
    ∃ header, new ⟨0x82⟩ 300 (some ⟨1, 2, 3, 4⟩) = .ok header ∧
      [[0x82, 0xFE, 0x01], [0x2C, 1], [], [2, 3, 4]].flatten = header.bytes ∧
      ∃ r, ({} : Registers).parseAll 6 [[0x82, 0xFE, 0x01], [0x2C, 1], [], [2, 3, 4]] =
          some (.ok (r, .ok header.bytes.length)) ∧
        r.Holds 300 (some ⟨1, 2, 3, 4⟩) ∧ r.stage = .payload := by
  obtain ⟨⟨header, hnew, -, hbytes, -, hparse⟩, -⟩ :=
    header_lengths_agree ⟨0x82⟩ 300 (some ⟨1, 2, 3, 4⟩)
  have hcuts : [[0x82, 0xFE, 0x01], [0x2C, 1], [], [2, 3, 4]].flatten = header.bytes := by
    rw [hbytes]
    decide
  obtain ⟨r, result, hrun, htakes⟩ := hparse {} true {} _ _ 6 .fresh rfl rfl (fun _ => rfl) hcuts
    (Nat.le_refl 6)
  obtain ⟨rfl, hstage⟩ := htakes.whole (by decide) (by decide) (by decide) (fun h => nomatch h.1)
  exact ⟨header, hnew, hcuts, r, hrun, htakes.holds (by decide) (by decide) (by decide), hstage⟩

end HeaderBuffer

end WireServer.WebSocket
