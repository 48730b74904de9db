import SpaServer.Base.Text

/-!
# Percent-encodings

A text of bytes has many percent-encodings, since every byte may be written as `%XX`, with digits
of either case.  `PercentEncoded bytes p` is that `p` is one of them, and
`percentDecode_of_encoded` that decoding undoes whichever was chosen.

`byteSlice s n` is `s[n..]`, which is a position in bytes and panics inside a character.
-/

namespace SpaServer.Base

/-! ### Encodings -/

/-- `p` is a percent-encoding of the bytes.  A URI does not allow every character as itself, but
the one that must be written as `%XX` for the sake of the decoder is `%`. -/
inductive PercentEncoded : List UInt8 → Str → Prop
  | nil : PercentEncoded [] []
  | literal {c : Char} {bytes : List UInt8} {p : Str} (hc : c ≠ '%') (h : PercentEncoded bytes p) :
      PercentEncoded (String.utf8EncodeChar c ++ bytes) (c :: p)
  | escaped {hi lo : Char} {a b x y : UInt8} {bytes : List UInt8} {p : Str}
      (hdigits : encodeUtf8 [hi, lo] = [a, b]) (ha : hexValue a = some x) (hb : hexValue b = some y)
      (h : PercentEncoded bytes p) : PercentEncoded ((16 * x + y) :: bytes) ('%' :: hi :: lo :: p)

theorem eq_percent_of_mem {c : Char} (h : 37 ∈ String.utf8EncodeChar c) : c = '%' :=
  Char.ext (UInt32.toNat_inj.mp (val_of_mem_encodeChar h (by decide)))

theorem percentDecodeBytes_append {front : List UInt8} (h : 37 ∉ front) (rest : List UInt8) :
    percentDecodeBytes (front ++ rest) = front ++ percentDecodeBytes rest := by
  induction front with
  | nil => rfl
  | cons b front ih =>
    rw [List.mem_cons, not_or] at h
    rw [List.cons_append, percentDecodeBytes_cons (Ne.symm h.1), ih h.2, List.cons_append]

theorem encodeUtf8_cons (c : Char) (s : Str) :
    encodeUtf8 (c :: s) = String.utf8EncodeChar c ++ encodeUtf8 s := List.flatMap_cons

theorem encodeUtf8_append (s t : Str) : encodeUtf8 (s ++ t) = encodeUtf8 s ++ encodeUtf8 t :=
  List.flatMap_append

/-- **Decoding undoes every encoding.** -/
theorem percentDecodeBytes_of_encoded {bytes : List UInt8} {p : Str} (h : PercentEncoded bytes p) :
    percentDecodeBytes (encodeUtf8 p) = bytes := by
  induction h with
  | nil => rfl
  | literal hc _ ih =>
    rw [encodeUtf8_cons, percentDecodeBytes_append fun hmem => hc (eq_percent_of_mem hmem), ih]
  | @escaped hi lo a b x y bytes p hdigits ha hb _ ih =>
    have hbytes : encodeUtf8 ('%' :: hi :: lo :: p) = 37 :: a :: b :: encodeUtf8 p := by
      show encodeUtf8 (['%'] ++ ([hi, lo] ++ p)) = _
      rw [encodeUtf8_append, encodeUtf8_append, hdigits]
      rfl
    rw [hbytes, percentDecodeBytes, ha, hb, ih]
    rfl

theorem percentDecode_of_encoded {k p : Str} (h : PercentEncoded (encodeUtf8 k) p) :
    percentDecode p = some k := by
  rw [percentDecode, percentDecodeBytes_of_encoded h, decodeUtf8_encodeUtf8]

/-! ### Slices of a string -/

/-- `s[n..]`: `none` where the slice panics, beyond the end or inside a character. -/
def byteSlice : Str → Nat → Option Str
  | s, 0 => some s
  | [], _ + 1 => none
  | c :: s, n + 1 => if utf8Len [c] ≤ n + 1 then byteSlice s (n + 1 - utf8Len [c]) else none

theorem byteSlice_one {c : Char} (hc : utf8Len [c] = 1) (s : Str) :
    byteSlice (c :: s) 1 = some s := by
  rw [byteSlice, hc, if_pos (Nat.le_refl 1), Nat.sub_self]
  cases s with
  | nil => rfl
  | cons d s => rfl

end SpaServer.Base
