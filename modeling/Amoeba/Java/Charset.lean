import Amoeba.Java.String
import Mathlib.Data.List.Basic

/-!
# Strings and bytes

`getBytes` and `new String` for ISO-8859-1 and UTF-8. Neither of the two ever fails: what
has no bytes becomes a question mark, and bytes that are no character become U+FFFD.

How many bytes one U+FFFD stands for is not documented and has changed between releases,
so it is an argument.

* `utf8_newString_getBytes` — a well-formed string is read back from its UTF-8.
* `iso88591_newString_getBytes_iff` — a string is read back from its ISO-8859-1 exactly
  when it has no code unit above 0xFF.
* `utf8_newString_eq_iso88591_iff` — bytes are the same string in both exactly when they
  are ASCII.
-/

namespace Java

/-! ### Code units and characters -/

/-- The code units of a character. -/
def utf16 (c : Char) : JString :=
  if c.toNat < 0x10000 then [c.toNat.toUInt16]
  else [(0xd800 + (c.toNat - 0x10000) / 0x400).toUInt16,
    (0xdc00 + (c.toNat - 0x10000) % 0x400).toUInt16]

/-- The well-formed string of these characters. -/
def text (cs : List Char) : JString := cs.flatMap utf16

def isHighSurrogate (u : UInt16) : Bool := 0xd800 ≤ u && u ≤ 0xdbff

def isLowSurrogate (u : UInt16) : Bool := 0xdc00 ≤ u && u ≤ 0xdfff

/-- The character of a code unit, if it is not half of one. -/
def single (u : UInt16) : Option Char :=
  if isHighSurrogate u || isLowSurrogate u then none else some (Char.ofNat u.toNat)

/-- The character of two code units. -/
def toCodePoint (u v : UInt16) : Char :=
  Char.ofNat (0x10000 + (u.toNat - 0xd800) * 0x400 + (v.toNat - 0xdc00))

/-- The characters of a string; `none` stands for a surrogate without the other half. -/
def chars : JString → List (Option Char)
  | [] => []
  | [u] => [single u]
  | u :: v :: s =>
    if isHighSurrogate u && isLowSurrogate v then some (toCodePoint u v) :: chars s
    else single u :: chars (v :: s)

/-! ### Charsets -/

/-- A charset: `s.getBytes(charset)` and `new String(bytes, charset)`. -/
structure Charset where
  getBytes : JString → List UInt8
  newString : List UInt8 → JString

/-- ISO-8859-1: the first 256 characters as bytes. -/
def iso88591 : Charset where
  getBytes s := (chars s).map fun
    | some c => if c.toNat ≤ 0xff then c.toNat.toUInt8 else 0x3f
    | none => 0x3f
  newString bytes := bytes.map UInt8.toUInt16

/-- The string of UTF-8 bytes, of which the first ones are skipped. Bytes that begin no
character become one U+FFFD, together with as many bytes behind them as `malformed` says. -/
def decodeUtf8 (malformed : List UInt8 → Nat) : Nat → List UInt8 → JString
  | _, [] => []
  | skip + 1, _ :: bytes => decodeUtf8 malformed skip bytes
  | 0, b :: bytes =>
    match (b :: bytes).toByteArray.utf8DecodeChar? 0 with
    | some c => utf16 c ++ decodeUtf8 malformed (c.utf8Size - 1) bytes
    | none => 0xfffd :: decodeUtf8 malformed (malformed (b :: bytes)) bytes

/-- UTF-8. -/
def utf8 (malformed : List UInt8 → Nat) : Charset where
  getBytes s := (chars s).flatMap fun
    | some c => String.utf8EncodeChar c
    | none => [0x3f]
  newString := decodeUtf8 malformed 0

/-! ### Well-formed strings -/

theorem toNat_toUInt16 {n : Nat} (h : n < 0x10000) : n.toUInt16.toNat = n :=
  Nat.mod_eq_of_lt h

/-- A character is no surrogate, and it is below 0x110000. -/
theorem toNat_bounds (c : Char) : (c.toNat < 0xd800 ∨ 0xdfff < c.toNat) ∧ c.toNat < 0x110000 := by
  have hvalid := c.valid
  show (c.val.toNat < 0xd800 ∨ 0xdfff < c.val.toNat) ∧ c.val.toNat < 0x110000
  unfold UInt32.isValidChar Nat.isValidChar at hvalid
  omega

theorem isHighSurrogate_iff {u : UInt16} :
    isHighSurrogate u = true ↔ 0xd800 ≤ u.toNat ∧ u.toNat ≤ 0xdbff := by
  rw [isHighSurrogate, Bool.and_eq_true, decide_eq_true_eq, decide_eq_true_eq]
  rfl

theorem isLowSurrogate_iff {u : UInt16} :
    isLowSurrogate u = true ↔ 0xdc00 ≤ u.toNat ∧ u.toNat ≤ 0xdfff := by
  rw [isLowSurrogate, Bool.and_eq_true, decide_eq_true_eq, decide_eq_true_eq]
  rfl

/-- The code unit of a character is no half of another one. -/
theorem not_surrogate_of_lt {c : Char} (h : c.toNat < 0x10000) :
    isHighSurrogate c.toNat.toUInt16 = false ∧ isLowSurrogate c.toNat.toUInt16 = false := by
  have hbounds := (toNat_bounds c).1
  rw [Bool.eq_false_iff, Bool.eq_false_iff, Ne, Ne, isHighSurrogate_iff, isLowSurrogate_iff,
    toNat_toUInt16 h]
  omega

theorem single_utf16 {c : Char} (h : c.toNat < 0x10000) : single c.toNat.toUInt16 = some c := by
  obtain ⟨hhigh, hlow⟩ := not_surrogate_of_lt h
  rw [single, hhigh, hlow, toNat_toUInt16 h, Char.ofNat_toNat]
  rfl

/-- The two halves of a character, with ten bits in each. -/
theorem toCodePoint_halves {c : Char} (h : ¬ c.toNat < 0x10000) {u v : UInt16}
    (hu : u.toNat = 0xd800 + (c.toNat - 0x10000) / 0x400)
    (hv : v.toNat = 0xdc00 + (c.toNat - 0x10000) % 0x400) :
    isHighSurrogate u = true ∧ isLowSurrogate v = true ∧ toCodePoint u v = c := by
  have hbound := (toNat_bounds c).2
  refine ⟨?_, ?_, ?_⟩
  · rw [isHighSurrogate_iff, hu]
    omega
  · rw [isLowSurrogate_iff, hv]
    omega
  -- the two remainders are put together again
  · have hsum : 0x10000 + (u.toNat - 0xd800) * 0x400 + (v.toNat - 0xdc00) = c.toNat := by omega
    rw [toCodePoint, hsum, Char.ofNat_toNat]

/-- The first character of a well-formed string. -/
theorem chars_append (c : Char) (s : JString) : chars (utf16 c ++ s) = some c :: chars s := by
  unfold utf16
  by_cases h : c.toNat < 0x10000
  · rw [if_pos h]
    -- one unit that is half of no character
    have hone := single_utf16 h
    cases s with
    | nil =>
      show [single c.toNat.toUInt16] = [some c]
      rw [hone]
    | cons v s =>
      rw [List.singleton_append, chars, (not_surrogate_of_lt h).1, hone]
      rfl
  · rw [if_neg h]
    -- two units that belong together
    have hbound := (toNat_bounds c).2
    obtain ⟨hhigh, hlow, hpair⟩ := toCodePoint_halves h (toNat_toUInt16 (by omega))
      (toNat_toUInt16 (by omega))
    rw [List.cons_append, List.singleton_append, chars, hhigh, hlow, hpair]
    rfl

theorem text_cons (c : Char) (cs : List Char) : text (c :: cs) = utf16 c ++ text cs :=
  List.flatMap_cons

theorem chars_text (cs : List Char) : chars (text cs) = cs.map some := by
  induction cs with
  | nil => rfl
  | cons c cs ih => rw [text_cons, chars_append, ih, List.map_cons]

/-! ### UTF-8 -/

section

variable {malformed : List UInt8 → Nat}

theorem utf8_getBytes_text (cs : List Char) :
    (utf8 malformed).getBytes (text cs) = cs.flatMap String.utf8EncodeChar := by
  show (chars (text cs)).flatMap _ = _
  rw [chars_text, List.flatMap_map]

theorem decodeUtf8_skip (bytes rest : List UInt8) :
    decodeUtf8 malformed bytes.length (bytes ++ rest) = decodeUtf8 malformed 0 rest := by
  induction bytes with
  | nil => rfl
  | cons b bytes ih => exact ih

/-- The bytes of a character are read as the character. -/
theorem decodeUtf8_append (c : Char) (rest : List UInt8) :
    decodeUtf8 malformed 0 (String.utf8EncodeChar c ++ rest) =
      utf16 c ++ decodeUtf8 malformed 0 rest := by
  have hread := ByteArray.utf8DecodeChar?_utf8EncodeChar_append (b := rest.toByteArray) (c := c)
  have hlen := String.length_utf8EncodeChar c
  rw [← List.toByteArray_append] at hread
  -- a character has at least one byte, and the others are skipped
  cases hc : String.utf8EncodeChar c with
  | nil =>
    rw [hc, List.length_nil] at hlen
    exact absurd c.utf8Size_pos (by omega)
  | cons b bytes =>
    rw [hc, List.cons_append] at hread
    rw [hc, List.length_cons] at hlen
    rw [List.cons_append, decodeUtf8, hread]
    dsimp only
    rw [← hlen, Nat.add_sub_cancel, decodeUtf8_skip]

/-- **A well-formed string is read back from its UTF-8.** -/
theorem utf8_newString_getBytes (cs : List Char) :
    (utf8 malformed).newString ((utf8 malformed).getBytes (text cs)) = text cs := by
  rw [utf8_getBytes_text]
  show decodeUtf8 malformed 0 _ = _
  induction cs with
  | nil => rfl
  | cons c cs ih => rw [List.flatMap_cons, decodeUtf8_append, ih, text_cons]

end

/-! ### ISO-8859-1 -/

theorem toNat_toUInt16_le (b : UInt8) : b.toUInt16.toNat ≤ 0xff := by
  have hb := b.toNat_lt
  rw [UInt8.toNat_toUInt16]
  omega

theorem toNat_le_of_mem_newString {bytes : List UInt8} {u : UInt16}
    (h : u ∈ iso88591.newString bytes) : u.toNat ≤ 0xff := by
  obtain ⟨b, -, rfl⟩ := List.mem_map.mp h
  exact toNat_toUInt16_le b

/-- The character of a byte. -/
def byteChar (b : UInt8) : Char := Char.ofNat b.toNat

theorem toNat_byteChar (b : UInt8) : (byteChar b).toNat = b.toNat := by
  have hb := b.toNat_lt
  have hvalid : b.toNat.isValidChar := Or.inl (by omega)
  rw [byteChar, Char.ofNat, dif_pos hvalid]
  rfl

theorem utf16_byteChar (b : UInt8) : utf16 (byteChar b) = [b.toUInt16] := by
  have hb := b.toNat_lt
  rw [utf16, toNat_byteChar, if_pos (by omega)]
  congr 1
  apply UInt16.toNat_inj.mp
  rw [toNat_toUInt16 (by omega), UInt8.toNat_toUInt16]

/-- An ASCII byte is a character by itself. -/
theorem utf8EncodeChar_byteChar {b : UInt8} (h : b.toNat < 0x80) :
    String.utf8EncodeChar (byteChar b) = [b] := by
  have hval : (byteChar b).val.toNat = b.toNat := toNat_byteChar b
  -- seven bits are one byte
  have hsize : (byteChar b).utf8Size = 1 := by
    apply Char.utf8Size_eq_one_iff.mpr
    rw [UInt32.le_iff_toNat_le, hval]
    exact Nat.le_of_lt_succ h
  rw [String.utf8EncodeChar_eq_singleton hsize]
  congr 1
  apply UInt8.toNat_inj.mp
  rw [UInt32.toNat_toUInt8, hval, Nat.mod_eq_of_lt (by omega)]

/-- What is read from bytes is well-formed. -/
theorem iso88591_newString (bytes : List UInt8) :
    iso88591.newString bytes = text (bytes.map byteChar) := by
  show bytes.map UInt8.toUInt16 = _
  induction bytes with
  | nil => rfl
  | cons b bytes ih =>
    rw [List.map_cons, List.map_cons, text_cons, utf16_byteChar, ih]
    rfl

/-- Bytes are got back from their ISO-8859-1 string. -/
theorem iso88591_getBytes_newString (bytes : List UInt8) :
    iso88591.getBytes (iso88591.newString bytes) = bytes := by
  rw [iso88591_newString]
  show (chars (text _)).map _ = _
  rw [chars_text, List.map_map, List.map_map]
  refine (List.map_congr_left ?_).trans (List.map_id bytes)
  intro b _
  have hb := b.toNat_lt
  show (if (byteChar b).toNat ≤ 0xff then (byteChar b).toNat.toUInt8 else 0x3f) = b
  rw [toNat_byteChar, if_pos (by omega)]
  exact UInt8.ofNat_toNat

/-- A well-formed string without a character above 0xFF consists of bytes. -/
theorem text_eq_newString {cs : List Char} (h : ∀ c ∈ cs, c.toNat ≤ 0xff) :
    text cs = iso88591.newString (cs.map fun c => c.toNat.toUInt8) := by
  rw [iso88591_newString, List.map_map]
  refine congrArg text ((List.map_id cs).symm.trans (List.map_congr_left ?_))
  intro c hc
  have hle := h c hc
  show c = Char.ofNat (c.toNat % 2 ^ 8)
  rw [Nat.mod_eq_of_lt (by omega), Char.ofNat_toNat]

/-- **A string is read back from its ISO-8859-1** exactly when it is made of bytes. -/
theorem iso88591_newString_getBytes_iff {s : JString} :
    iso88591.newString (iso88591.getBytes s) = s ↔ ∀ u ∈ s, u.toNat ≤ 0xff := by
  constructor
  · intro h u hu
    rw [← h] at hu
    exact toNat_le_of_mem_newString hu
  · intro h
    -- such a string is the one of its own low bytes
    have hs : s = iso88591.newString (s.map UInt16.toUInt8) := by
      show s = (s.map UInt16.toUInt8).map UInt8.toUInt16
      rw [List.map_map]
      refine (List.map_id s).symm.trans (List.map_congr_left ?_)
      intro u hu
      have hle := h u hu
      apply UInt16.toNat_inj.mp
      show u.toNat = u.toUInt8.toUInt16.toNat
      rw [UInt8.toNat_toUInt16, UInt16.toNat_toUInt8, Nat.mod_eq_of_lt (by omega)]
    rw [hs, iso88591_getBytes_newString]

/-! ### Bytes read in both ways -/

/-- The code units of a character above 0xFF are above 0xFF. -/
theorem toNat_le_of_utf16 {c : Char} (h : ∀ u ∈ utf16 c, u.toNat ≤ 0xff) : c.toNat ≤ 0xff := by
  unfold utf16 at h
  by_cases hc : c.toNat < 0x10000
  · rw [if_pos hc] at h
    have hle := h _ List.mem_cons_self
    rwa [toNat_toUInt16 hc] at hle
  · rw [if_neg hc] at h
    have hbound := (toNat_bounds c).2
    -- the first of two units is a surrogate
    have hle := h _ List.mem_cons_self
    rw [toNat_toUInt16 (by omega)] at hle
    omega

/-- The first step of reading UTF-8: a character with its bytes, or none. -/
theorem decodeUtf8_cons (malformed : List UInt8 → Nat) (b : UInt8) (bytes : List UInt8) :
    (∃ c rest, b :: bytes = String.utf8EncodeChar c ++ rest ∧
      decodeUtf8 malformed 0 (b :: bytes) = utf16 c ++ decodeUtf8 malformed 0 rest) ∨
    ∃ skip, decodeUtf8 malformed 0 (b :: bytes) = 0xfffd :: decodeUtf8 malformed skip bytes := by
  cases hread : (b :: bytes).toByteArray.utf8DecodeChar? 0 with
  | some c =>
    obtain ⟨l, hl⟩ := ByteArray.exists_of_utf8DecodeChar?_eq_some hread
    -- a character that is read is what stands there
    have hbytes : b :: bytes = String.utf8EncodeChar c ++ l.data.toList := by
      have hdata := congrArg (fun a : ByteArray => a.data.toList) hl
      rwa [ByteArray.data_append, Array.toList_append, List.toList_data_toByteArray,
        List.toList_data_toByteArray] at hdata
    refine .inl ⟨c, l.data.toList, hbytes, ?_⟩
    rw [hbytes, decodeUtf8_append]
  | none =>
    refine .inr ⟨malformed (b :: bytes), ?_⟩
    rw [decodeUtf8, hread]

theorem length_utf16_le (c : Char) : (utf16 c).length ≤ c.utf8Size := by
  have hpos := c.utf8Size_pos
  unfold utf16
  by_cases h : c.toNat < 0x10000
  · rw [if_pos h]
    exact hpos
  · rw [if_neg h]
    have hfour : c.utf8Size = 4 := by
      apply Char.utf8Size_eq_four_iff.mpr
      rw [UInt32.lt_iff_toNat_lt]
      show 0xffff < c.toNat
      omega
    rw [hfour]
    exact Nat.le_add_right 2 2

/-- There are no more code units than bytes. -/
theorem length_decodeUtf8_le (malformed : List UInt8 → Nat) (skip : Nat) (bytes : List UInt8) :
    (decodeUtf8 malformed skip bytes).length ≤ bytes.length := by
  -- on the number of bytes, as a character takes several of them
  induction hn : bytes.length using Nat.strongRecOn generalizing skip bytes with
  | ind n ih =>
    subst hn
    cases bytes with
    | nil => exact Nat.le_refl _
    | cons b bytes =>
      cases skip with
      | succ skip => exact Nat.le_succ_of_le (ih _ (Nat.lt_succ_self _) skip bytes rfl)
      | zero =>
        obtain ⟨c, rest, hbytes, hread⟩ | ⟨skip, hread⟩ := decodeUtf8_cons malformed b bytes
        · have hlen := congrArg List.length hbytes
          rw [List.length_append, String.length_utf8EncodeChar] at hlen
          have hpos := c.utf8Size_pos
          have hrest := ih rest.length (by omega) 0 rest rfl
          rw [hread, List.length_append, hlen]
          exact Nat.add_le_add (length_utf16_le c) hrest
        · rw [hread]
          exact Nat.succ_le_succ (ih _ (Nat.lt_succ_self _) skip bytes rfl)

/-- If no byte is lost and no code unit is above 0xFF, the bytes are ASCII. -/
theorem ascii_of_decodeUtf8 (malformed : List UInt8 → Nat) {bytes : List UInt8}
    (hlen : bytes.length ≤ (decodeUtf8 malformed 0 bytes).length)
    (hsmall : ∀ u ∈ decodeUtf8 malformed 0 bytes, u.toNat ≤ 0xff) :
    ∀ b ∈ bytes, b.toNat < 0x80 := by
  induction hn : bytes.length using Nat.strongRecOn generalizing bytes with
  | ind n ih =>
    subst hn
    cases bytes with
    | nil => exact fun b hb => absurd hb List.not_mem_nil
    | cons b bytes =>
      obtain ⟨c, rest, hbytes, hread⟩ | ⟨skip, hread⟩ := decodeUtf8_cons malformed b bytes
      · rw [hread] at hlen hsmall
        -- a character without a unit above 0xFF, and as many units as bytes
        have hc := toNat_le_of_utf16 fun u hu => hsmall u (List.mem_append_left _ hu)
        have hone : (utf16 c).length = 1 := by
          rw [utf16, if_pos (by omega)]
          rfl
        have hsum := congrArg List.length hbytes
        have hrest := length_decodeUtf8_le malformed 0 rest
        have hpos := c.utf8Size_pos
        rw [List.length_append, String.length_utf8EncodeChar] at hsum
        rw [List.length_append, hone] at hlen
        -- one code unit for all the bytes of the character
        have hsize : c.utf8Size = 1 := by omega
        have hle : c.val.toNat ≤ 127 := Char.utf8Size_eq_one_iff.mp hsize
        rw [String.utf8EncodeChar_eq_singleton hsize] at hbytes
        obtain ⟨rfl, rfl⟩ := List.cons.inj hbytes
        intro b' hb'
        obtain rfl | hb' := List.mem_cons.mp hb'
        · rw [UInt32.toNat_toUInt8, Nat.mod_eq_of_lt (by omega)]
          exact Nat.lt_succ_of_le hle
        · exact ih bytes.length (Nat.lt_succ_self _) (by omega)
            (fun u hu => hsmall u (List.mem_append_right _ hu)) rfl b' hb'
      · rw [hread] at hsmall
        exact absurd (hsmall 0xfffd List.mem_cons_self) (by decide)

/-- **Bytes that are the same string in both charsets** are ASCII. -/
theorem utf8_newString_eq_iso88591_iff {malformed : List UInt8 → Nat} {bytes : List UInt8} :
    (utf8 malformed).newString bytes = iso88591.newString bytes ↔ ∀ b ∈ bytes, b.toNat < 0x80 := by
  constructor
  · intro h
    have hlen : (iso88591.newString bytes).length = bytes.length := List.length_map _
    apply ascii_of_decodeUtf8 malformed
    · have hsame : bytes.length = ((utf8 malformed).newString bytes).length := by rw [h, hlen]
      exact Nat.le_of_eq hsame
    · intro u hu
      have hu' : u ∈ (utf8 malformed).newString bytes := hu
      rw [h] at hu'
      exact toNat_le_of_mem_newString hu'
  · intro h
    show decodeUtf8 malformed 0 bytes = bytes.map UInt8.toUInt16
    induction bytes with
    | nil => rfl
    | cons b bytes ih =>
      have hb := h b List.mem_cons_self
      have hbytes : b :: bytes = String.utf8EncodeChar (byteChar b) ++ bytes := by
        rw [utf8EncodeChar_byteChar hb, List.singleton_append]
      rw [hbytes, decodeUtf8_append, utf16_byteChar, ← hbytes, List.map_cons,
        ih fun b' hb' => h b' (List.mem_cons_of_mem b hb')]
      rfl

end Java
