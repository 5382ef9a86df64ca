import WireServer.WebSocket.MaskWords

/-! Masking a word at a time comes to masking byte by byte, wherever the word boundaries fall and
whichever byte of a word comes first in memory: the key is turned to the place where the words
begin, and whole words do not move that place. -/

namespace WireServer.WebSocket

/-! ### Words of memory -/

namespace ByteOrder

theorem byteOf_xor (v w : UInt32) (i : Nat) : byteOf (v ^^^ w) i = byteOf v i ^^^ byteOf w i := by
  simp [byteOf, BitVec.extractLsb'_xor]

theorem byteOf_join (a b c d : UInt8) :
    byteOf (join a b c d) 0 = a ∧ byteOf (join a b c d) 1 = b ∧ byteOf (join a b c d) 2 = c ∧
      byteOf (join a b c d) 3 = d := by
  refine ⟨?_, ?_, ?_, ?_⟩ <;> simp only [byteOf, join, ← UInt8.toBitVec_inj] <;> ext i hi <;>
    simp only [BitVec.getElem_extractLsb', BitVec.getLsbD_append] <;> grind

theorem bytes_word (order : ByteOrder) (a b c d : UInt8) :
    order.bytes (order.word a b c d) = [a, b, c, d] := by
  cases order with
  | little =>
    obtain ⟨ha, hb, hc, hd⟩ := byteOf_join a b c d
    simp only [bytes, word, ha, hb, hc, hd]
  | big =>
    obtain ⟨hd, hc, hb, ha⟩ := byteOf_join d c b a
    simp only [bytes, word, ha, hb, hc, hd]

/-- The words of memory are those bytes of it. -/
theorem flatMap_words (order : ByteOrder) (n : Nat) (bs : Bytes) (h : 4 * n ≤ bs.length) :
    (order.words n bs).flatMap order.bytes = bs.take (4 * n) ∧ (order.words n bs).length = n := by
  induction n generalizing bs with
  | zero => simp [words]
  | succ n ih =>
    obtain ⟨a, b, c, d, bs, rfl⟩ : ∃ a b c d rest, bs = a :: b :: c :: d :: rest := by
      match bs, h with
      | a :: b :: c :: d :: rest, _ => exact ⟨a, b, c, d, rest, rfl⟩
    simp only [List.length_cons] at h
    obtain ⟨hbytes, hlen⟩ := ih bs (by omega)
    have htake : (a :: b :: c :: d :: bs).take (4 * (n + 1)) = [a, b, c, d] ++ bs.take (4 * n) := by
      simp [show 4 * (n + 1) = 4 * n + 1 + 1 + 1 + 1 by omega]
    rw [words, List.flatMap_cons, bytes_word, hbytes, htake, List.length_cons, hlen]
    exact ⟨rfl, rfl⟩

theorem length_bytes (order : ByteOrder) (w : UInt32) : (order.bytes w).length = 4 := by
  cases order <;> rfl

theorem length_flatMap_bytes (order : ByteOrder) (ws : List UInt32) :
    (ws.flatMap order.bytes).length = 4 * ws.length := by
  induction ws with
  | nil => rfl
  | cons w ws ih =>
    rw [List.flatMap_cons, List.length_append, length_bytes, ih, List.length_cons]
    omega

/-- A word combined with a word is four bytes combined with four. -/
theorem flatMap_bytes_xor (order : ByteOrder) (k : MaskKey) (ws : List UInt32) :
    (ws.map (· ^^^ order.word k.k0 k.k1 k.k2 k.k3)).flatMap order.bytes =
      Mask.applyWords k ws.length (ws.flatMap order.bytes) := by
  have hkey := order.bytes_word k.k0 k.k1 k.k2 k.k3
  induction ws with
  | nil => rfl
  | cons w ws ih =>
    rw [List.map_cons, List.flatMap_cons, ih, List.flatMap_cons, List.length_cons]
    cases order <;>
    · simp only [bytes, List.cons.injEq, and_true] at hkey
      obtain ⟨h0, h1, h2, h3⟩ := hkey
      simp only [bytes, byteOf_xor, h0, h1, h2, h3, List.cons_append, List.nil_append,
        Mask.applyWords]

end ByteOrder

namespace Slices

/-- Where a buffer is cut. -/
def shape (s : Slices) : Nat × Nat × Nat := (s.head.length, s.words.length, s.tail.length)

/-- Every way to cut a buffer at word boundaries is one. -/
theorem bytes_cut (order : ByteOrder) (head words : Nat) (bs : Bytes)
    (h : head + 4 * words ≤ bs.length) :
    (cut order head words bs).bytes order = bs ∧ (cut order head words bs).head.length = head ∧
      (cut order head words bs).words.length = words := by
  obtain ⟨hwords, hlen⟩ := order.flatMap_words words (bs.drop head)
    (by rw [List.length_drop]; omega)
  refine ⟨?_, List.length_take_of_le (by omega), hlen⟩
  rw [bytes, cut, hwords, ← List.drop_drop, List.append_assoc, List.take_append_drop,
    List.take_append_drop]

end Slices

/-! ### One buffer -/

namespace Mask

variable {m : Mask}

/-- One byte at a time: the bytes are masked in a row, and the place in the key goes along. -/
theorem stepBytes_eq (h : m.offset < 4) (bs : Bytes) :
    m.stepBytes bs = (m.skip bs.length, m.apply bs) := by
  induction bs generalizing m with
  | nil => rw [stepBytes, List.length_nil, skip_zero h]; rfl
  | cons b bs ih =>
    have hfirst : m.apply (b :: bs) = (b ^^^ m.key.byteAt m.offset) :: (m.skip 1).apply bs :=
      m.apply_append [b] bs
    have hnext : ({ m with offset := (m.offset + 1) % 4 } : Mask) = m.skip 1 := rfl
    rw [stepBytes, hnext, ih (m.offset_skip_lt 1), skip_skip, hfirst, List.length_cons,
      Nat.add_comm 1]

theorem skip_words (h : m.offset < 4) (n : Nat) : m.skip (4 * n) = m := by
  rw [skip, Nat.add_mul_mod_self_left, Nat.mod_eq_of_lt h]

/-- Four bytes of the key, turned to their place, serve for any number of words. -/
theorem applyWords_rotate (h : m.offset < 4) (n : Nat) (bs : Bytes) (hlen : bs.length = 4 * n) :
    applyWords (m.key.rotate m.offset) n bs = m.apply bs := by
  induction n generalizing bs with
  | zero =>
    rw [List.length_eq_zero_iff.1 hlen]
    rfl
  | succ n ih =>
    obtain ⟨a, b, c, d, bs, rfl⟩ : ∃ a b c d rest, bs = a :: b :: c :: d :: rest := by
      match bs, hlen with
      | a :: b :: c :: d :: rest, _ => exact ⟨a, b, c, d, rest, rfl⟩
    have hfirst : m.apply (a :: b :: c :: d :: bs) =
        m.apply [a, b, c, d] ++ (m.skip (4 * 1)).apply bs := m.apply_append [a, b, c, d] bs
    simp only [List.length_cons] at hlen
    rw [hfirst, skip_words h, applyWords, ih bs (by omega)]
    rfl

/-- Where the words of a buffer begin makes no difference. -/
theorem applyAligned_eq_apply (m : Mask) {head words : Nat} {bs : Bytes}
    (h : head + 4 * words ≤ bs.length) : m.applyAligned head words bs = m.apply bs := by
  have hhead : (bs.take head).length = head := List.length_take_of_le (by omega)
  have hmiddle : ((bs.drop head).take (4 * words)).length = 4 * words :=
    List.length_take_of_le (by rw [List.length_drop]; omega)
  have hplace : (m.skip head).offset < 4 := m.offset_skip_lt head
  calc m.applyAligned head words bs
      = m.apply (bs.take head) ++ (m.skip head).apply ((bs.drop head).take (4 * words)) ++
          (m.skip head).apply (bs.drop (head + 4 * words)) := by
        simp only [applyAligned, hhead, applyWords_rotate hplace words _ hmiddle]
    _ = m.apply (bs.take head ++ ((bs.drop head).take (4 * words) ++
          (bs.drop head).drop (4 * words))) := by
        rw [apply_append, apply_append, hhead, hmiddle, skip_words hplace, List.append_assoc,
          List.drop_drop]
    _ = m.apply bs := by rw [List.take_append_drop, List.take_append_drop]

theorem sweep_eq (order : ByteOrder) (h : m.offset < 4) (s : Slices) :
    m.sweep order s = (m.skip (s.bytes order).length,
      ⟨m.apply s.head, s.words.map (· ^^^ (m.skip s.head.length).word order),
        (m.skip s.head.length).apply s.tail⟩) := by
  have hplace : (m.skip s.head.length).offset < 4 := m.offset_skip_lt _
  have hwords (w : UInt32) : (if s.words.isEmpty then s.words else s.words.map (· ^^^ w)) =
      s.words.map (· ^^^ w) := by
    by_cases hnone : s.words = []
    · simp [hnone]
    · simp [hnone]
  have hlen : (m.skip s.head.length).skip s.tail.length = m.skip (s.bytes order).length := by
    rw [← skip_words hplace s.words.length, skip_skip, skip_skip, Slices.bytes, List.length_append,
      List.length_append, order.length_flatMap_bytes, Nat.add_assoc]
  simp only [sweep, stepBytes_eq h, stepBytes_eq hplace, hwords, hlen]

/-- A buffer masked a word at a time is the buffer masked byte by byte. -/
theorem bytes_sweep (order : ByteOrder) (h : m.offset < 4) (s : Slices) :
    (m.sweep order s).2.bytes order = m.apply (s.bytes order) := by
  have hshape : s.head.length + 4 * s.words.length ≤ (s.bytes order).length := by
    rw [Slices.bytes, List.length_append, List.length_append, order.length_flatMap_bytes]
    omega
  have hrest : (s.bytes order).drop s.head.length = s.words.flatMap order.bytes ++ s.tail := by
    rw [Slices.bytes, List.append_assoc, List.drop_left]
  have hwords : (s.words.flatMap order.bytes ++ s.tail).take (4 * s.words.length) =
      s.words.flatMap order.bytes := by
    rw [← order.length_flatMap_bytes, List.take_left]
  have htail : (s.words.flatMap order.bytes ++ s.tail).drop (4 * s.words.length) = s.tail := by
    rw [← order.length_flatMap_bytes, List.drop_left]
  have hhead : (s.bytes order).take s.head.length = s.head := by
    rw [Slices.bytes, List.append_assoc, List.take_left]
  rw [← applyAligned_eq_apply m hshape, applyAligned, ← List.drop_drop, hhead, hrest, hwords, htail,
    sweep_eq order h, Slices.bytes]
  exact congrArg (m.apply s.head ++ · ++ _) (order.flatMap_bytes_xor _ s.words)

/-- A buffer that is masked in place is cut as it was. -/
theorem shape_sweep (order : ByteOrder) (h : m.offset < 4) (s : Slices) :
    (m.sweep order s).2.shape = s.shape := by
  rw [sweep_eq order h]
  simp only [Slices.shape, length_apply, List.length_map]

/-! ### Buffers one after the other -/

theorem sweepAll_eq (order : ByteOrder) (h : m.offset < 4) (calls : List Slices) :
    (m.sweepAll order calls).1 = m.skip (calls.flatMap (·.bytes order)).length ∧
      (m.sweepAll order calls).2.flatMap (·.bytes order) =
        m.apply (calls.flatMap (·.bytes order)) ∧
      (m.sweepAll order calls).2.map Slices.shape = calls.map Slices.shape := by
  induction calls generalizing m with
  | nil => exact ⟨(skip_zero h).symm, rfl, rfl⟩
  | cons s calls ih =>
    have hmask : (m.sweep order s).1 = m.skip (s.bytes order).length := by rw [sweep_eq order h]
    obtain ⟨hskip, hbytes, hshape⟩ := ih (m := (m.sweep order s).1)
      (by rw [hmask]; exact m.offset_skip_lt _)
    refine ⟨?_, ?_, by rw [sweepAll, List.map_cons, List.map_cons, shape_sweep order h, hshape]⟩
    · rw [sweepAll, hskip, hmask, skip_skip, List.flatMap_cons, List.length_append]
    · rw [sweepAll, List.flatMap_cons, List.flatMap_cons, apply_append, bytes_sweep order h, hbytes,
        hmask]

/-- However a payload comes in buffers, and wherever each buffer is cut at word boundaries, masking
it a word at a time combines each byte with the byte of the key at its place, counted from the first
buffer; the place in the key behind it is the number of bytes, modulo four, and each buffer is
masked where it stands. This is what masking the payload as a whole comes to. With the same key from
its start, other buffers and other cuts, on a machine of either byte order, the payload comes back.
And every cut of a buffer into bytes, whole words and bytes is among those that are meant. -/
theorem sweepAll_of_any_cuts (order order' : ByteOrder) (key : MaskKey) (bs : Bytes)
    (calls again : List Slices) (hcalls : calls.flatMap (·.bytes order) = bs)
    (hagain : again.flatMap (·.bytes order') =
      ((⟨key, 0⟩ : Mask).sweepAll order calls).2.flatMap (·.bytes order)) :
    let (m, masked) := (⟨key, 0⟩ : Mask).sweepAll order calls
    masked.flatMap (·.bytes order) = (bs.mapIdx fun i b => b ^^^ key.byteAt i) ∧
      masked.flatMap (·.bytes order) = key.apply bs ∧
      m = ⟨key, bs.length % 4⟩ ∧ masked.map Slices.shape = calls.map Slices.shape ∧
      ((⟨key, 0⟩ : Mask).sweepAll order' again).2.flatMap (·.bytes order') = bs ∧
      ∀ buffer : Bytes, ∀ head words, head + 4 * words ≤ buffer.length → ∃ s : Slices,
        s.bytes order = buffer ∧ s.head.length = head ∧ s.words.length = words := by
  obtain ⟨hmask, hbytes, hshape⟩ :=
    sweepAll_eq (m := ⟨key, 0⟩) order (Nat.zero_lt_succ 3) calls
  obtain ⟨-, hback, -⟩ := sweepAll_eq (m := ⟨key, 0⟩) order' (Nat.zero_lt_succ 3) again
  rw [hcalls] at hmask hbytes
  refine ⟨?_, hbytes, ?_, hshape, ?_, fun buffer head words hfits =>
    ⟨_, Slices.bytes_cut order head words buffer hfits⟩⟩
  · rw [hbytes, apply]
    simp only [Nat.zero_add]
  · rw [hmask, skip, Nat.zero_add]
  · rw [hback, hagain, hbytes, apply_apply]

/-- Eleven bytes in two buffers, with words in the first one only, and back again as one buffer with
words behind three bytes. -/
theorem sweepAll_of_any_cuts_turned :
    let key : MaskKey := ⟨0x37, 0xFA, 0x21, 0x3D⟩
    let bs : Bytes := [0, 1, 2, 3, 4, 5, 6, 7, 8, 9, 10]
    let calls : List Slices := [.cut .little 1 1 (bs.take 6), .cut .little 5 0 (bs.drop 6)]
    let masked := ((⟨key, 0⟩ : Mask).sweepAll .little calls).2.flatMap (·.bytes .little)
    calls.flatMap (·.bytes .little) = bs ∧
      masked = [0x37, 0xFB, 0x23, 0x3E, 0x33, 0xFF, 0x27, 0x3A, 0x3F, 0xF3, 0x2B] ∧
      ((⟨key, 0⟩ : Mask).sweepAll .big [.cut .big 3 2 masked]).2.flatMap (·.bytes .big) = bs := by
  intro key bs calls masked
  have hcalls : calls.flatMap (·.bytes .little) = bs := by decide +kernel
  have hagain : [Slices.cut .big 3 2 masked].flatMap (·.bytes .big) = masked := by decide +kernel
  obtain ⟨-, -, -, -, hback, -⟩ :=
    sweepAll_of_any_cuts .little .big key bs calls [.cut .big 3 2 masked] hcalls hagain
  exact ⟨hcalls, by decide +kernel, hback⟩

end Mask

end WireServer.WebSocket
