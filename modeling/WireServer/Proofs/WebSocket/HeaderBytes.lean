import WireServer.Proofs.WebSocket.RoundTrip
import WireServer.WebSocket.HeaderBuffer

/-! What is written into a header buffer: the header of the frame, which always fits. -/

namespace WireServer.WebSocket

namespace Header

theorem length_lengthField (masked : Bool) (n : Nat) :
    (lengthField masked n).length = if n ≤ 125 then 1 else if n ≤ 0xFFFF then 3 else 9 := by
  simp only [lengthField]
  split
  · rfl
  · split <;> simp

theorem length_lengthField_le (masked : Bool) (n : Nat) : (lengthField masked n).length ≤ 9 := by
  rw [length_lengthField]
  split
  · decide
  · split <;> decide

/-- The bytes of a key, if there is one. -/
def keyBytes (key : Option MaskKey) : Bytes := (key.map MaskKey.toBytes).getD []

theorem length_keyBytes (key : Option MaskKey) : (keyBytes key).length ≤ 4 := by
  cases key <;> simp [keyBytes, MaskKey.toBytes]

theorem encode_eq (flags : Flags) (n : Nat) (key : Option MaskKey) :
    encode flags n key = flags.bits :: (lengthField key.isSome n ++ keyBytes key) := rfl

theorem length_encode (flags : Flags) (n : Nat) (key : Option MaskKey) :
    (encode flags n key).length ≤ HeaderBuffer.maxLength := by
  have hfield := length_lengthField_le key.isSome n
  have hkey := length_keyBytes key
  rw [encode_eq, List.length_cons, List.length_append, HeaderBuffer.maxLength]
  omega

theorem length_server (flags : Flags) (n : Nat) : (server flags n).length = length n := by
  rw [server, encode_eq, List.length_cons, List.length_append, length_lengthField, length]
  simp only [keyBytes, Option.map_none, Option.getD_none, List.length_nil]
  split
  · rfl
  · split <;> rfl

end Header

namespace HeaderBuffer

namespace Writer

/-- A buffer with these bytes in front and zeros behind. -/
def holding (bs : Bytes) : Writer := ⟨bs, List.replicate (maxLength - bs.length) 0⟩

theorem put_holding {bs more : Bytes} (h : (bs ++ more).length ≤ maxLength) :
    (holding bs).put more = .ok (holding (bs ++ more)) := by
  rw [List.length_append] at h
  rw [put, holding, if_pos (by rw [List.length_replicate]; omega), holding, List.drop_replicate,
    List.length_append, Nat.sub_sub]

theorem narrow8?_filter (n : UInt64) :
    (narrow8? n).filter (· ≤ 125) = if n.toNat ≤ 125 then some (UInt8.ofNat n.toNat) else none := by
  by_cases hbyte : n.toNat < 2 ^ 8
  · have hvalue : n.toUInt8.toNat = n.toNat := by
      rw [UInt64.toNat_toUInt8]
      exact Nat.mod_eq_of_lt hbyte
    have hsame : n.toUInt8 = UInt8.ofNat n.toNat := by
      rw [← UInt8.toNat_inj, hvalue, UInt8.toNat_ofNat']
      exact (Nat.mod_eq_of_lt hbyte).symm
    have hsmall : n.toUInt8 ≤ 125 ↔ n.toNat ≤ 125 := by
      rw [UInt8.le_iff_toNat_le, hvalue]
      rfl
    rw [show narrow8? n = some n.toUInt8 from if_pos hbyte, Option.filter_some]
    simp only [decide_eq_true_eq, hsmall]
    rw [hsame]
  · rw [show narrow8? n = none from if_neg hbyte, if_neg (by omega)]
    rfl

theorem narrow16?_map (n : UInt64) :
    (narrow16? n).map (·.toNat) = if n.toNat ≤ 0xFFFF then some n.toNat else none := by
  by_cases hshort : n.toNat < 2 ^ 16
  · rw [show narrow16? n = some n.toUInt16 from if_pos hshort, if_pos (by omega), Option.map_some,
      UInt64.toNat_toUInt16, Nat.mod_eq_of_lt hshort]
  · rw [show narrow16? n = none from if_neg hshort, if_neg (by omega)]
    rfl

/-- The checked conversions come to the first form that holds the length. -/
theorem putLength_holding {bs : Bytes} (h : bs.length ≤ 5) (masked : Bool) (n : UInt64) :
    (holding bs).putLength (if masked then 0x80 else 0) n =
      .ok (holding (bs ++ Header.lengthField masked n.toNat)) := by
  have hroom : (bs ++ Header.lengthField masked n.toNat).length ≤ maxLength := by
    have hfield := Header.length_lengthField_le masked n.toNat
    rw [List.length_append, maxLength]
    omega
  have hextended (code : UInt8) (field : Bytes)
      (hfield : Header.lengthField masked n.toNat = code :: field) :
      (do (← (holding bs).put [code]).put field) =
        .ok (holding (bs ++ Header.lengthField masked n.toNat)) := by
    rw [hfield, List.append_cons] at hroom ⊢
    have hfirst : (bs ++ [code]).length ≤ maxLength := by
      rw [List.length_append] at hroom
      omega
    rw [put_holding hfirst]
    exact put_holding hroom
  rw [putLength, narrow8?_filter]
  by_cases hbyte : n.toNat ≤ 125
  · rw [if_pos hbyte]
    have hfield : Header.lengthField masked n.toNat =
        [(if masked then 0x80 else 0) ||| UInt8.ofNat n.toNat] := if_pos hbyte
    rw [hfield] at hroom ⊢
    exact put_holding hroom
  rw [if_neg hbyte]
  by_cases hshort : n.toNat ≤ 0xFFFF
  · obtain ⟨len, hlen, hvalue⟩ : ∃ len, narrow16? n = some len ∧ len.toNat = n.toNat := by
      have hmap := narrow16?_map n
      rwa [if_pos hshort, Option.map_eq_some_iff] at hmap
    rw [hlen]
    simp only [hvalue]
    exact hextended _ _ ((if_neg hbyte).trans (if_pos hshort))
  · have hnone : narrow16? n = none := by
      have hmap := narrow16?_map n
      rwa [if_neg hshort, Option.map_eq_none_iff] at hmap
    rw [hnone]
    exact hextended _ _ ((if_neg hbyte).trans (if_neg hshort))

theorem putKey_holding {bs : Bytes} (h : bs.length ≤ 10) (key : Option MaskKey) :
    (holding bs).putKey key = .ok (holding (bs ++ Header.keyBytes key)) := by
  cases key with
  | none => simp [putKey, Header.keyBytes]
  | some key =>
    refine put_holding ?_
    have hkey : key.toBytes.length = 4 := rfl
    rw [List.length_append, maxLength]
    omega

theorem bytes_finish {bs : Bytes} (h : bs.length ≤ maxLength) : (holding bs).finish.bytes = bs := by
  have hcount : maxLength - (holding bs).free.length = bs.length := by
    rw [holding, List.length_replicate]
    omega
  have hlen : (UInt8.ofNat bs.length).toNat = bs.length := by
    rw [UInt8.toNat_ofNat']
    rw [maxLength] at h
    omega
  rw [bytes, finish, hcount, hlen]
  exact List.take_left' rfl

end Writer

/-- The header of a frame always fits, and it is what the buffer holds. -/
theorem new_eq (flags : Flags) (n : UInt64) (key : Option MaskKey) :
    ∃ h, new flags n key = .ok h ∧ h.bytes = Header.encode flags n.toNat key := by
  have hfirst : Writer.put {} [flags.bits] = .ok (Writer.holding [flags.bits]) :=
    Writer.put_holding
      (show (([] : Bytes) ++ [flags.bits]).length ≤ maxLength from Nat.le_add_left 1 13)
  have hsecond :=
    Writer.putLength_holding (show [flags.bits].length ≤ 5 from Nat.le_add_left 1 4) key.isSome n
  have hfield : ([flags.bits] ++ Header.lengthField key.isSome n.toNat).length ≤ 10 := by
    have hbound := Header.length_lengthField_le key.isSome n.toNat
    rw [List.length_append, List.length_singleton]
    omega
  have hthird := Writer.putKey_holding hfield key
  refine ⟨_, by simp only [new, hfirst, hsecond, hthird, bind, Except.bind]; rfl, ?_⟩
  exact Writer.bytes_finish (Header.length_encode flags n.toNat key)

/-- A length that 64 bits do not hold takes the longest header as well. -/
theorem server_eq (flags : Flags) (n : Nat) :
    ∃ h, server flags n = .ok h ∧ h.bytes.length = Header.length n := by
  obtain ⟨h, hnew, hbytes⟩ := new_eq flags (saturate n) none
  refine ⟨h, hnew, ?_⟩
  rw [hbytes, ← Header.server, Header.length_server]
  by_cases hword : n < 2 ^ 64
  · rw [show saturate n = UInt64.ofNat n from if_pos hword, UInt64.toNat_ofNat_of_lt' hword]
  · rw [show saturate n = UInt64.ofNat (UInt64.size - 1) from if_neg hword, Header.length,
      Header.length, if_neg (by decide), if_neg (by decide), if_neg (by omega), if_neg (by omega)]

end HeaderBuffer

end WireServer.WebSocket
