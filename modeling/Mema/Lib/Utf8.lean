import Mathlib.Data.List.Basic

/-!
# UTF-8 text that may be damaged

Encoding is by `String.utf8EncodeChar`. Decoding never fails: a byte that begins no character
is read as U+FFFD and skipped by itself.
-/

namespace Utf8

/-- The bytes of a text. -/
def encode (cs : List Char) : List UInt8 := cs.flatMap String.utf8EncodeChar

/-- The character read where no encoding begins. -/
def replacement : Char := '\uFFFD'

/-- The characters of a byte sequence. -/
def decode : List UInt8 → List Char
  | [] => []
  | b :: bs =>
    match (b :: bs).toByteArray.utf8DecodeChar? 0 with
    | some ch => ch :: decode ((b :: bs).drop ch.utf8Size)
    | none => replacement :: decode bs
termination_by bs => bs.length
decreasing_by
  · have := ch.utf8Size_pos
    rw [List.length_drop, List.length_cons]
    omega
  · exact Nat.lt_succ_self _

@[simp]
theorem encode_nil : encode [] = [] := rfl

theorem encode_cons (ch : Char) (cs : List Char) :
    encode (ch :: cs) = String.utf8EncodeChar ch ++ encode cs := rfl

/-- A decoded character is what the bytes encode, and the rest is decoded behind it. -/
theorem decode_char_append (ch : Char) (bs : List UInt8) :
    decode (String.utf8EncodeChar ch ++ bs) = ch :: decode bs := by
  have hdecode : (String.utf8EncodeChar ch ++ bs).toByteArray.utf8DecodeChar? 0 = some ch := by
    rw [List.toByteArray_append, ByteArray.utf8DecodeChar?_utf8EncodeChar_append]
  have hdrop : (String.utf8EncodeChar ch ++ bs).drop ch.utf8Size = bs := by
    rw [← String.length_utf8EncodeChar, List.drop_left]
  cases htext : String.utf8EncodeChar ch ++ bs with
  | nil =>
    rw [List.append_eq_nil_iff] at htext
    exact absurd htext.1 String.utf8EncodeChar_ne_nil
  | cons b rest =>
    rw [htext] at hdecode hdrop
    rw [decode, hdecode]
    show ch :: decode ((b :: rest).drop ch.utf8Size) = ch :: decode bs
    rw [hdrop]

/-- Decoding gives back an encoded text, whatever bytes follow it. -/
theorem decode_encode_append (cs : List Char) (bs : List UInt8) :
    decode (encode cs ++ bs) = cs ++ decode bs := by
  induction cs with
  | nil => rfl
  | cons ch cs ih => rw [encode_cons, List.append_assoc, decode_char_append, ih, List.cons_append]

theorem decode_nil : decode [] = [] := by rw [decode]

theorem decode_encode (cs : List Char) : decode (encode cs) = cs := by
  have h := decode_encode_append cs []
  rwa [List.append_nil, decode_nil, List.append_nil] at h

/-- Every byte of a character beyond ASCII is at least 128. -/
theorem eq_of_mem_utf8EncodeChar {b : UInt8} {ch : Char} (h : b ∈ String.utf8EncodeChar ch)
    (hb : b.toNat < 128) : b.toNat = ch.toNat := by
  unfold String.utf8EncodeChar at h
  have htoNat : ch.val.toNat = ch.toNat := rfl
  simp only at h
  split at h
  · next hone =>
    rw [List.mem_singleton] at h
    rw [h, UInt8.toNat_ofNat', htoNat]
    omega
  · split at h
    · next htwo =>
      simp only [List.mem_cons, List.not_mem_nil, or_false] at h
      rcases h with rfl | rfl <;> rw [UInt8.toNat_ofNat'] at hb <;> omega
    · split at h
      · next hthree =>
        simp only [List.mem_cons, List.not_mem_nil, or_false] at h
        rcases h with rfl | rfl | rfl <;> rw [UInt8.toNat_ofNat'] at hb <;> omega
      · next hfour =>
        simp only [List.mem_cons, List.not_mem_nil, or_false] at h
        rcases h with rfl | rfl | rfl | rfl <;> rw [UInt8.toNat_ofNat'] at hb <;> omega

/-- An ASCII byte of an encoded text is one of its characters. -/
theorem mem_of_mem_encode {cs : List Char} {b : UInt8} (h : b ∈ encode cs)
    (hb : b.toNat < 128) : ∃ ch ∈ cs, ch.toNat = b.toNat := by
  obtain ⟨ch, hch, hmem⟩ := List.mem_flatMap.mp h
  exact ⟨ch, hch, (eq_of_mem_utf8EncodeChar hmem hb).symm⟩

/-- A text is empty where its bytes are. -/
theorem encode_eq_nil {cs : List Char} : encode cs = [] ↔ cs = [] := by
  constructor
  · intro h
    rw [← decode_encode cs, h, decode_nil]
  · intro h
    rw [h, encode_nil]

end Utf8
