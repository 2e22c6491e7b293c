import FluentBuilders.Text.Utf8
import Mathlib.Data.List.Basic

/-!
# Proofs/Text/Utf8 — text is decoded from its own bytes

Between two characters the decoder takes the bytes of a whole character at once
(`decodeFrom_utf8EncodeChar`, one lemma for each number of bytes), so the bytes of a text are the
text (`decode_toUTF8`); and a text without carriage returns is what its file holds
(`ofFile_toUTF8`).
-/

namespace FluentBuilders.Text

/-! ## The bytes of a text -/

theorem toList_loop (bytes : ByteArray) (i : Nat) (done : List UInt8) :
    ByteArray.toList.loop bytes i done = done.reverse ++ bytes.data.toList.drop i := by
  rw [ByteArray.toList.loop]
  split
  · next hi =>
    have hget : bytes.get! i :: bytes.data.toList.drop (i + 1) = bytes.data.toList.drop i := by
      rw [List.drop_eq_getElem_cons hi]
      congr 1
      rw [ByteArray.get!, Array.getElem_toList, getElem!_pos]
    rw [toList_loop, List.reverse_cons, List.append_assoc, List.singleton_append, hget]
  · next hi =>
    rw [List.drop_of_length_le (by simpa using hi), List.append_nil]
termination_by bytes.size - i

theorem toList_toUTF8 (s : String) : s.toUTF8.toList = s.toList.flatMap String.utf8EncodeChar := by
  rw [ByteArray.toList, toList_loop]
  change s.toByteArray.data.toList = _
  rw [← String.utf8Encode_toList]
  simp [List.utf8Encode]

/-! ## One character -/

variable {position v : Nat} {done : List Char} {bytes : List Nat}

theorem decodeFrom_one (h : v < 0x80) :
    decodeFrom position none done ([v] ++ bytes) =
      decodeFrom (position + 1) none (Char.ofNat v :: done) bytes := by
  simp [decodeFrom, begin?, h]

theorem decodeFrom_two (h : 0x80 ≤ v) (h' : v < 0x800) :
    decodeFrom position none done ([v / 64 + 0xC0, v % 64 + 0x80] ++ bytes) =
      decodeFrom (position + 2) none (Char.ofNat v :: done) bytes := by
  have hbegin : begin? (v / 64 + 0xC0) = some (v / 64, [inner]) := by
    rw [begin?, if_neg (by omega), if_neg (by omega), if_pos (by omega), Nat.add_sub_cancel]
  have hvalue : v / 64 * 64 + (v % 64 + 0x80 - 0x80) = v := by omega
  simp only [List.cons_append, List.nil_append, decodeFrom, hbegin]
  rw [if_pos (by simp only [inner]; omega), hvalue]

theorem second_three (h : 0x800 ≤ v) (h' : v < 0x10000) (hv : v < 0xD800 ∨ 0xDFFF < v) :
    (second (v / 4096 + 0xE0)).1 ≤ v / 64 % 64 + 0x80 ∧
      v / 64 % 64 + 0x80 ≤ (second (v / 4096 + 0xE0)).2 := by
  unfold second
  split <;> simp only [inner] <;> omega

theorem second_four (h : 0x10000 ≤ v) (h' : v < 0x110000) :
    (second (v / 262144 + 0xF0)).1 ≤ v / 4096 % 64 + 0x80 ∧
      v / 4096 % 64 + 0x80 ≤ (second (v / 262144 + 0xF0)).2 := by
  unfold second
  split <;> simp only [inner] <;> omega

theorem decodeFrom_three (h : 0x800 ≤ v) (h' : v < 0x10000) (hv : v < 0xD800 ∨ 0xDFFF < v) :
    decodeFrom position none done
        ([v / 4096 + 0xE0, v / 64 % 64 + 0x80, v % 64 + 0x80] ++ bytes) =
      decodeFrom (position + 3) none (Char.ofNat v :: done) bytes := by
  have hbegin : begin? (v / 4096 + 0xE0) =
      some (v / 4096, [second (v / 4096 + 0xE0), inner]) := by
    rw [begin?, if_neg (by omega), if_neg (by omega), if_neg (by omega), if_pos (by omega),
      Nat.add_sub_cancel]
  have hvalue : (v / 4096 * 64 + (v / 64 % 64 + 0x80 - 0x80)) * 64 + (v % 64 + 0x80 - 0x80) = v := by
    omega
  simp only [List.cons_append, List.nil_append, decodeFrom, hbegin]
  rw [if_pos (second_three h h' hv)]
  rw [if_pos (by simp only [inner]; omega), hvalue]

theorem decodeFrom_four (h : 0x10000 ≤ v) (h' : v < 0x110000) :
    decodeFrom position none done
        ([v / 262144 + 0xF0, v / 4096 % 64 + 0x80, v / 64 % 64 + 0x80, v % 64 + 0x80] ++ bytes) =
      decodeFrom (position + 4) none (Char.ofNat v :: done) bytes := by
  have hbegin : begin? (v / 262144 + 0xF0) =
      some (v / 262144, [second (v / 262144 + 0xF0), inner, inner]) := by
    rw [begin?, if_neg (by omega), if_neg (by omega), if_neg (by omega), if_neg (by omega),
      if_pos (by omega), Nat.add_sub_cancel]
  have hvalue : ((v / 262144 * 64 + (v / 4096 % 64 + 0x80 - 0x80)) * 64 +
      (v / 64 % 64 + 0x80 - 0x80)) * 64 + (v % 64 + 0x80 - 0x80) = v := by
    omega
  simp only [List.cons_append, List.nil_append, decodeFrom, hbegin]
  rw [if_pos (second_four h h')]
  rw [if_pos (by simp only [inner]; omega)]
  rw [if_pos (by simp only [inner]; omega), hvalue]

/-- **The bytes of a character are decoded to it.** -/
theorem decodeFrom_utf8EncodeChar (c : Char) :
    decodeFrom position none done ((String.utf8EncodeChar c).map (·.toNat) ++ bytes) =
      decodeFrom (position + c.utf8Size) none (c :: done) bytes := by
  obtain ⟨v, hv⟩ : ∃ v, c.val.toNat = v := ⟨_, rfl⟩
  have hvalid : v < 0xD800 ∨ 0xDFFF < v ∧ v < 0x110000 := hv ▸ c.valid
  have hc : Char.ofNat v = c := hv ▸ Char.ofNat_toNat c
  have hbyte : ∀ n, (UInt8.ofNat n).toNat = n % 256 := fun _ => rfl
  rw [← String.length_utf8EncodeChar, String.utf8EncodeChar, hv]
  split
  · next hone =>
    have hbytes : [UInt8.ofNat v].map (·.toNat) = [v] := by
      simp only [List.map_cons, List.map_nil, hbyte, List.cons.injEq, and_true]
      omega
    rw [hbytes, decodeFrom_one (by omega), hc, List.length_singleton]
  · split
    · next htwo =>
      have hbytes : [UInt8.ofNat (v / 64 % 32 + 192), UInt8.ofNat (v % 64 + 128)].map (·.toNat) =
          [v / 64 + 0xC0, v % 64 + 0x80] := by
        simp only [List.map_cons, List.map_nil, hbyte, List.cons.injEq, and_true]
        omega
      rw [hbytes, decodeFrom_two (by omega) (by omega), hc]
      rfl
    · split
      · next hthree =>
        have hbytes : [UInt8.ofNat (v / 4096 % 16 + 224), UInt8.ofNat (v / 64 % 64 + 128),
            UInt8.ofNat (v % 64 + 128)].map (·.toNat) =
            [v / 4096 + 0xE0, v / 64 % 64 + 0x80, v % 64 + 0x80] := by
          simp only [List.map_cons, List.map_nil, hbyte, List.cons.injEq, and_true]
          omega
        rw [hbytes, decodeFrom_three (by omega) (by omega) (by omega), hc]
        rfl
      · next hfour =>
        have hbytes : [UInt8.ofNat (v / 262144 % 8 + 240), UInt8.ofNat (v / 4096 % 64 + 128),
            UInt8.ofNat (v / 64 % 64 + 128), UInt8.ofNat (v % 64 + 128)].map (·.toNat) =
            [v / 262144 + 0xF0, v / 4096 % 64 + 0x80, v / 64 % 64 + 0x80, v % 64 + 0x80] := by
          simp only [List.map_cons, List.map_nil, hbyte, List.cons.injEq, and_true]
          omega
        rw [hbytes, decodeFrom_four (by omega) (by omega), hc]
        rfl

/-! ## A whole text -/

theorem decodeFrom_flatMap (cs : List Char) :
    decodeFrom position none done ((cs.flatMap String.utf8EncodeChar).map (·.toNat)) =
      .ok (done.reverse ++ cs) := by
  induction cs generalizing position done with
  | nil => rw [List.append_nil]; rfl
  | cons c cs ih =>
    rw [List.flatMap_cons, List.map_append, decodeFrom_utf8EncodeChar, ih, List.reverse_cons,
      List.append_assoc]
    rfl

/-- **A text is decoded from its bytes.** -/
theorem decode_toUTF8 (s : String) : decode s.toUTF8 = .ok s.toList := by
  rw [decode, toList_toUTF8, decodeFrom_flatMap]
  rfl

theorem unifyLineBreaks_of_notMem {cs : List Char} (h : '\r' ∉ cs) : unifyLineBreaks cs = cs := by
  induction cs with
  | nil => rfl
  | cons c cs ih =>
    obtain ⟨hc, hcs⟩ := not_or.1 (List.mem_cons.not.1 h)
    rw [unifyLineBreaks.eq_3 _ _ fun _ hr _ => hc hr.symm, if_neg (Ne.symm hc), ih hcs]

/-- **A text without carriage returns is what its file holds.** -/
theorem ofFile_toUTF8 {s : String} (h : '\r' ∉ s.toList) : ofFile s.toUTF8 = .ok s := by
  rw [ofFile, decode_toUTF8, Except.map, unifyLineBreaks_of_notMem h, String.ofList_toList]

end FluentBuilders.Text
