import Mathlib.Data.List.Infix
import Mathlib.Data.List.Basic

/-!
# Strings

A string is the list of its characters, so what a Rust `String` or `&str` holds
is always valid UTF-8 here as it is there.  This file has the standard library's
string functions that the server and the client use:

* `remove pat s` is `s.replace(pat, "")`, which takes out the non-overlapping
  occurrences of `pat` from left to right;
* `toDecimal` and `parseU32` are `u32::to_string` and `str::parse::<u32>`; the
  parser is the looser of the two, it takes a leading `+` and leading zeros;
* `percentDecode` is `percent_decode_str(s).decode_utf8()`.

Splitting at a character is `List.splitOn`.
-/

namespace SpaServer.Base

abbrev Str := List Char

/-! ### Removing a substring -/

/-- The state of the search: how many characters of the last match are still to
be skipped. -/
def removeFrom (pat : Str) : Nat → Str → Str
  | _, [] => []
  | skip + 1, _ :: s => removeFrom pat skip s
  | 0, c :: s =>
    if pat ≠ [] ∧ pat <+: c :: s then removeFrom pat (pat.length - 1) s
    else c :: removeFrom pat 0 s

/-- `s.replace(pat, "")`. -/
def remove (pat s : Str) : Str := removeFrom pat 0 s

theorem removeFrom_eq_drop (pat : Str) : ∀ (n : Nat) (s : Str),
    removeFrom pat n s = remove pat (s.drop n)
  | 0, _ => rfl
  | _ + 1, [] => rfl
  | n + 1, _ :: s => removeFrom_eq_drop pat n s

@[simp] theorem remove_nil (pat : Str) : remove pat [] = [] := rfl

theorem remove_append {pat : Str} (hp : pat ≠ []) (s : Str) :
    remove pat (pat ++ s) = remove pat s := by
  obtain ⟨c, pat', rfl⟩ := List.exists_cons_of_ne_nil hp
  rw [remove, List.cons_append, removeFrom,
    if_pos ⟨hp, by rw [← List.cons_append]; exact List.prefix_append _ _⟩, removeFrom_eq_drop]
  simp

theorem remove_cons_of_not {pat : Str} {c : Char} {s : Str} (h : ¬ pat <+: c :: s) :
    remove pat (c :: s) = c :: remove pat s := by
  rw [remove, removeFrom, if_neg (fun hc => h hc.2), remove]

theorem remove_eq_self {pat : Str} : ∀ {s : Str}, ¬ pat <:+: s → remove pat s = s
  | [], _ => rfl
  | c :: s, h => by
    rw [remove_cons_of_not fun hp => h hp.isInfix,
      remove_eq_self fun hs => h (hs.trans (List.infix_cons (List.infix_refl s)))]

/-! ### Decimal numbers -/

/-- `u32::to_string`. -/
def toDecimal (v : UInt32) : Str := Nat.toDigits 10 v.toNat

/-- The sign an unsigned number may carry. -/
def dropPlus : Str → Str
  | '+' :: s => s
  | s => s

/-- `str::parse::<u32>().ok()`: an optional `+`, at least one digit, no overflow. -/
def parseU32 (s : Str) : Option UInt32 :=
  let digits := dropPlus s
  if digits ≠ [] ∧ digits.all Char.isDigit ∧ Nat.ofDigitChars 10 digits 0 < UInt32.size then
    some (UInt32.ofNat (Nat.ofDigitChars 10 digits 0))
  else
    none

theorem isDigit_of_mem_toDecimal {v : UInt32} {c : Char} (h : c ∈ toDecimal v) : c.isDigit :=
  Nat.isDigit_of_mem_toDigits (by omega) (by omega) h

theorem toDecimal_ne_nil (v : UInt32) : toDecimal v ≠ [] := Nat.toDigits_ne_nil

theorem not_mem_toDecimal {v : UInt32} {c : Char} (h : c.isDigit = false) : c ∉ toDecimal v :=
  fun hc => by rw [isDigit_of_mem_toDecimal hc] at h; exact absurd h (by decide)

/-- **What is printed is read back.** -/
@[simp] theorem parseU32_toDecimal (v : UInt32) : parseU32 (toDecimal v) = some v := by
  have hplus : '+' ∉ toDecimal v := not_mem_toDecimal (by decide)
  have hdigits : dropPlus (toDecimal v) = toDecimal v := by
    unfold dropPlus
    split
    · next ds h => rw [h] at hplus; simp at hplus
    · rfl
  have hval : Nat.ofDigitChars 10 (toDecimal v) 0 = v.toNat := Nat.ofDigitChars_ten_toDigits
  have hall : (toDecimal v).all Char.isDigit = true :=
    List.all_eq_true.mpr fun c hc => isDigit_of_mem_toDecimal hc
  rw [parseU32, hdigits, hval, if_pos ⟨toDecimal_ne_nil v, hall, v.toNat_lt_size⟩]
  simp

theorem toDecimal_injective : Function.Injective toDecimal := fun v w h => by
  have := congrArg parseU32 h
  simpa using this

instance lawfulOrderMax_uInt32 : Std.LawfulOrderMax UInt32 where
  max_eq_or a b := by
    show (if a ≤ b then b else a) = a ∨ (if a ≤ b then b else a) = b
    split <;> simp
  max_le_iff a b c := by
    show (if a ≤ b then b else a) ≤ c ↔ a ≤ c ∧ b ≤ c
    simp only [UInt32.le_iff_toNat_le]
    split <;> omega

/-! ### UTF-8 and percent-encoding -/

def encodeUtf8 (s : Str) : List UInt8 := s.flatMap String.utf8EncodeChar

/-- `String::from_utf8(bytes).ok()`. -/
def decodeUtf8 (bytes : List UInt8) : Option Str :=
  bytes.toByteArray.utf8Decode?.map Array.toList

theorem decodeUtf8_encodeUtf8 (s : Str) : decodeUtf8 (encodeUtf8 s) = some s := by
  have h : (encodeUtf8 s).toByteArray = s.utf8Encode := rfl
  rw [decodeUtf8, h, List.utf8Decode?_utf8Encode]
  rfl

def hexValue (b : UInt8) : Option UInt8 :=
  if 48 ≤ b ∧ b ≤ 57 then some (b - 48)
  else if 65 ≤ b ∧ b ≤ 70 then some (b - 55)
  else if 97 ≤ b ∧ b ≤ 102 then some (b - 87)
  else none

/-- `percent_decode`: a `%` that two hexadecimal digits do not follow stands for itself. -/
def percentDecodeBytes : List UInt8 → List UInt8
  | [] => []
  | [a] => [a]
  | [a, b] => [a, b]
  | a :: b :: c :: rest =>
    match a == 37, hexValue b, hexValue c with
    | true, some hi, some lo => (16 * hi + lo) :: percentDecodeBytes rest
    | _, _, _ => a :: percentDecodeBytes (b :: c :: rest)

/-- `percent_decode_str(s).decode_utf8().ok()`. -/
def percentDecode (s : Str) : Option Str := decodeUtf8 (percentDecodeBytes (encodeUtf8 s))

theorem encodeUtf8_of_decodeUtf8 {bytes : List UInt8} {s : Str} (h : decodeUtf8 bytes = some s) :
    encodeUtf8 s = bytes := by
  rw [decodeUtf8, Option.map_eq_some_iff] at h
  obtain ⟨a, ha, rfl⟩ := h
  have hsome : bytes.toByteArray.utf8Decode?.isSome := by rw [ha]; rfl
  have hget : bytes.toByteArray.utf8Decode?.get hsome = a := by simp [ha]
  have hb := @ByteArray.utf8Encode_get_utf8Decode? bytes.toByteArray hsome
  rw [hget] at hb
  have := congrArg (fun b : ByteArray => b.data.toList) hb
  simpa [List.utf8Encode, encodeUtf8] using this

theorem encodeUtf8_injective : Function.Injective encodeUtf8 := fun s t h => by
  have := congrArg decodeUtf8 h
  simpa [decodeUtf8_encodeUtf8] using this

/-! ### Lengths in bytes -/

/-- `str::len`. -/
def utf8Len (s : Str) : Nat := (encodeUtf8 s).length

@[simp] theorem utf8Len_nil : utf8Len [] = 0 := rfl

@[simp] theorem utf8Len_append (s t : Str) : utf8Len (s ++ t) = utf8Len s + utf8Len t := by
  simp [utf8Len, encodeUtf8]

theorem utf8Len_cons (c : Char) (s : Str) : utf8Len (c :: s) = utf8Len [c] + utf8Len s :=
  utf8Len_append [c] s

theorem utf8Len_pos {s : Str} (h : s ≠ []) : 0 < utf8Len s := by
  obtain ⟨c, s, rfl⟩ := List.exists_cons_of_ne_nil h
  rw [utf8Len_cons, utf8Len, encodeUtf8, List.flatMap_singleton]
  have := Char.utf8Size_pos c
  simp only [String.length_utf8EncodeChar]
  omega

/-- Taking out occurrences leaves the string as it is, or shorter by one of them at least. -/
theorem remove_eq_or_shorter (pat : Str) : ∀ s : Str,
    remove pat s = s ∨ utf8Len (remove pat s) + utf8Len pat ≤ utf8Len s
  | [] => Or.inl rfl
  | c :: s => by
    by_cases hp : pat ≠ [] ∧ pat <+: c :: s
    · obtain ⟨hne, t, ht⟩ := hp
      have hlen : t.length < (c :: s).length := by
        rw [← ht, List.length_append]
        have := List.length_pos_iff.mpr hne
        omega
      refine Or.inr ?_
      rw [← ht, remove_append hne, utf8Len_append]
      rcases remove_eq_or_shorter pat t with h | h
      · rw [h]; omega
      · omega
    · have hcons : remove pat (c :: s) = c :: remove pat s := by
        rw [remove, removeFrom, if_neg hp, remove]
      rw [hcons, utf8Len_cons, utf8Len_cons c s]
      rcases remove_eq_or_shorter pat s with h | h
      · exact Or.inl (by rw [h])
      · exact Or.inr (by omega)
termination_by s => s.length
decreasing_by
  · exact hlen
  · simp

/-- **A string stays as it is exactly when** the text does not occur in it. -/
theorem remove_eq_self_iff {pat : Str} (hp : pat ≠ []) {s : Str} :
    remove pat s = s ↔ ¬ pat <:+: s := by
  refine ⟨fun h hin => ?_, remove_eq_self⟩
  induction s with
  | nil => exact hp (List.infix_nil.mp hin)
  | cons c s ih =>
    by_cases hpre : pat <+: c :: s
    · obtain ⟨t, ht⟩ := hpre
      have hshort : utf8Len (remove pat t) ≤ utf8Len t := by
        rcases remove_eq_or_shorter pat t with he | hlt
        · rw [he]
        · omega
      have hlen := congrArg utf8Len h
      have := utf8Len_pos hp
      rw [← ht, remove_append hp, utf8Len_append] at hlen
      omega
    · rw [remove_cons_of_not hpre] at h
      exact ih (List.cons.inj h).2 ((List.infix_cons_iff.mp hin).resolve_left hpre)

theorem percentDecodeBytes_eq_or_shorter : ∀ bs : List UInt8,
    percentDecodeBytes bs = bs ∨ (percentDecodeBytes bs).length < bs.length
  | [] => Or.inl rfl
  | [_] => Or.inl rfl
  | [_, _] => Or.inl rfl
  | a :: b :: c :: rest => by
    have hkeep : a :: percentDecodeBytes (b :: c :: rest) = a :: b :: c :: rest ∨
        (a :: percentDecodeBytes (b :: c :: rest)).length < (a :: b :: c :: rest).length := by
      rcases percentDecodeBytes_eq_or_shorter (b :: c :: rest) with h | h
      · exact Or.inl (by rw [h])
      · exact Or.inr (by simp only [List.length_cons] at h ⊢; omega)
    rw [percentDecodeBytes]
    split
    · refine Or.inr ?_
      rcases percentDecodeBytes_eq_or_shorter rest with h | h
      · rw [h]; simp
      · simp only [List.length_cons]; omega
    · exact hkeep

theorem percentDecode_eq_or_shorter {s t : Str} (h : percentDecode s = some t) :
    t = s ∨ utf8Len t < utf8Len s := by
  have ht := encodeUtf8_of_decodeUtf8 h
  rcases percentDecodeBytes_eq_or_shorter (encodeUtf8 s) with he | hlt
  · exact Or.inl (encodeUtf8_injective (ht.trans he))
  · exact Or.inr (by rw [utf8Len, ht]; exact hlt)

/-- A byte below 128 is a character of its own, and part of no other. -/
theorem val_of_mem_encodeChar {c : Char} {b : UInt8} (h : b ∈ String.utf8EncodeChar c)
    (hb : b.toNat < 128) : c.val.toNat = b.toNat := by
  have hbyte : ∀ n : Nat, b = UInt8.ofNat n → b.toNat = n % 256 := fun n hn => by
    have := congrArg UInt8.toNat hn
    simpa using this
  rw [String.utf8EncodeChar] at h
  split at h
  · have := hbyte _ (List.mem_singleton.mp h)
    omega
  -- the bytes of a longer character
  have hhigh : ∀ n : Nat, 128 ≤ n % 256 → b ≠ UInt8.ofNat n := fun n hn he => by
    rw [hbyte n he] at hb
    omega
  split at h
  · simp only [List.mem_cons, List.not_mem_nil, or_false] at h
    rcases h with h | h
    · exact absurd h (hhigh _ (by omega))
    · exact absurd h (hhigh _ (by omega))
  split at h
  · simp only [List.mem_cons, List.not_mem_nil, or_false] at h
    rcases h with h | h | h
    · exact absurd h (hhigh _ (by omega))
    · exact absurd h (hhigh _ (by omega))
    · exact absurd h (hhigh _ (by omega))
  · simp only [List.mem_cons, List.not_mem_nil, or_false] at h
    rcases h with h | h | h | h
    · exact absurd h (hhigh _ (by omega))
    · exact absurd h (hhigh _ (by omega))
    · exact absurd h (hhigh _ (by omega))
    · exact absurd h (hhigh _ (by omega))

theorem percentDecodeBytes_cons {b : UInt8} (hb : b ≠ 37) (rest : List UInt8) :
    percentDecodeBytes (b :: rest) = b :: percentDecodeBytes rest := by
  rcases rest with _ | ⟨c, _ | ⟨d, rest⟩⟩
  · rfl
  · rfl
  · rw [percentDecodeBytes, beq_eq_false_iff_ne.mpr hb]

/-- A character of one byte at the front stays there. -/
theorem percentDecode_cons {c : Char} (hc : c.val.toNat < 128) (hne : c ≠ '%') {s t : Str}
    (h : percentDecode (c :: s) = some t) : ∃ t', t = c :: t' := by
  have hbyte : (UInt8.ofNat c.val.toNat).toNat = c.val.toNat := by
    rw [UInt8.toNat_ofNat']
    omega
  have hbytes : percentDecodeBytes (encodeUtf8 (c :: s)) =
      UInt8.ofNat c.val.toNat :: percentDecodeBytes (encodeUtf8 s) := by
    have hencode : encodeUtf8 (c :: s) = UInt8.ofNat c.val.toNat :: encodeUtf8 s := by
      rw [encodeUtf8, List.flatMap_cons, String.utf8EncodeChar, if_pos (by omega)]
      rfl
    rw [hencode]
    refine percentDecodeBytes_cons (fun he => hne (Char.ext (UInt32.toNat_inj.mp ?_))) _
    rw [← hbyte, he]
    rfl
  have ht := encodeUtf8_of_decodeUtf8 h
  rw [hbytes] at ht
  cases t with
  | nil => exact absurd ht (by simp [encodeUtf8])
  | cons d t =>
    -- the byte is in the first character, and is all of it
    have hmem : UInt8.ofNat c.val.toNat ∈ String.utf8EncodeChar d := by
      rw [encodeUtf8, List.flatMap_cons] at ht
      cases he : String.utf8EncodeChar d with
      | nil => exact absurd he (by simp)
      | cons b bs =>
        rw [he] at ht
        rw [(List.cons.inj ht).1]
        exact List.mem_cons_self
    have hval := val_of_mem_encodeChar hmem (hbyte.trans_lt hc)
    exact ⟨t, by rw [Char.ext (UInt32.toNat_inj.mp (hval.trans hbyte))]⟩

theorem percentDecode_slash {s t : Str} (h : percentDecode ('/' :: s) = some t) :
    ∃ t', t = '/' :: t' := percentDecode_cons (by decide) (by decide) h

example : percentDecode "/a%20b/100%".toList = some "/a b/100%".toList := by decide

end SpaServer.Base
