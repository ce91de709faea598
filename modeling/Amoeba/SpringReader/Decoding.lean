import Amoeba.Java.Charset
import Amoeba.SpringReader.Subscribe
import Amoeba.SpringReader.Tags

/-!
# Keywords that the container has decoded

A container that is not told otherwise decodes the UTF-8 bytes of a request as
ISO-8859-1. `CommonConverter.encodeConverter`, `HomeController.createsubscribe` and
`SearchController.query` therefore read a keyword that could be ISO-8859-1 once more, as
UTF-8. They do not know whether it has been decoded correctly before.

* `redecode_misread` — a keyword that was decoded as ISO-8859-1 is repaired.
* `keyword_repaired_iff` — a keyword arrives whichever way it was decoded if and only if
  it has a character above U+00FF or none above U+007F.
-/

namespace SpringReader

open Java

/-! ### The three copies -/

/-- What depends on the Java runtime: how many bytes one U+FFFD stands for, and GBK, which
is not in every runtime. -/
structure Runtime where
  malformed : List UInt8 → Nat
  gbk : Option Charset

/-- What all three copies do with the string. -/
def redecode (rt : Runtime) (str : JString) : JString :=
  if str = iso88591.newString (iso88591.getBytes str) then
    (utf8 rt.malformed).newString (iso88591.getBytes str)
  else if str = (utf8 rt.malformed).newString ((utf8 rt.malformed).getBytes str) then
    (utf8 rt.malformed).newString ((utf8 rt.malformed).getBytes str)
  else
    match rt.gbk with
    -- the `UnsupportedEncodingException` is caught
    | none => str
    | some gbk =>
      if str = gbk.newString (gbk.getBytes str) then
        (utf8 rt.malformed).newString (gbk.getBytes str)
      else str

/-- `CommonConverter.encodeConverter` -/
def encodeConverter (rt : Runtime) : Option JString → JString
  | none => []
  | some str => redecode rt str

/-- `HomeController.createsubscribe` -/
def HomeController.createsubscribe (rt : Runtime) (w : World) (q : SubscribeRequest) :
    Answer × World := SpringReader.createsubscribe (redecode rt) w q

/-- What `SearchController.query` puts into the page. -/
structure SearchModel where
  articles : List Article
  listAction : JString
  keyword : JString
  deriving DecidableEq, Repr

/-- `SearchController.query`; `findAll` is the search for the page that is asked for.
Without a keyword there is no page. -/
def SearchController.query (rt : Runtime) (findAll : JString → List Article) :
    Option JString → Option SearchModel
  | none => none
  | some keyword =>
    let keyword := redecode rt keyword
    some
      { articles := findAll keyword
        listAction := lit "/search?keyword=" ++ keyword
        keyword := keyword }

/-! ### Both ways of decoding -/

/-- The string that a container makes of the UTF-8 bytes when it takes them for
ISO-8859-1. -/
def misread (rt : Runtime) (s : JString) : JString :=
  iso88591.newString ((utf8 rt.malformed).getBytes s)

/-- A container has decoded the bytes of `s` as `k`, correctly or not. -/
def Received (rt : Runtime) (s k : JString) : Prop := k = s ∨ k = misread rt s

/-- **The keyword arrives** whichever way the container has decoded it: the converter
returns it, and subscribing and searching are for this keyword. -/
structure KeywordRepaired (rt : Runtime) (s : JString) : Prop where
  converted : ∀ k, Received rt s k → encodeConverter rt (some k) = s
  stored : ∀ k, Received rt s k → ∀ w user email now newId,
    HomeController.createsubscribe rt w ⟨user, k, email, now, newId⟩ =
      SpringReader.createsubscribe id w ⟨user, s, email, now, newId⟩
  searched : ∀ k, Received rt s k → ∀ findAll,
    SearchController.query rt findAll (some k) =
      some ⟨findAll s, lit "/search?keyword=" ++ s, s⟩

section

variable {rt : Runtime}

/-- A string of bytes is read again as UTF-8. -/
theorem redecode_of_bytes (bytes : List UInt8) :
    redecode rt (iso88591.newString bytes) = (utf8 rt.malformed).newString bytes := by
  rw [redecode, iso88591_getBytes_newString, if_pos rfl]

/-- A well-formed string that is more than bytes is left as it is. -/
theorem redecode_of_wide {cs : List Char} (h : ∃ u ∈ text cs, 0xff < u.toNat) :
    redecode rt (text cs) = text cs := by
  obtain ⟨u, hu, hwide⟩ := h
  have hno : text cs ≠ iso88591.newString (iso88591.getBytes (text cs)) := by
    intro heq
    have hle := iso88591_newString_getBytes_iff.mp heq.symm u hu
    omega
  rw [redecode, if_neg hno, utf8_newString_getBytes, if_pos rfl]

/-- **A keyword that was decoded as ISO-8859-1 is repaired**, whatever it is. -/
theorem redecode_misread (cs : List Char) : redecode rt (misread rt (text cs)) = text cs := by
  rw [misread, redecode_of_bytes, utf8_newString_getBytes]

/-- A string that has been decoded correctly is kept exactly when it is ASCII or more
than bytes. -/
theorem redecode_text_iff (rt : Runtime) {cs : List Char} : redecode rt (text cs) = text cs ↔
    (∀ c ∈ cs, c.toNat < 0x80) ∨ ∃ c ∈ cs, 0xff < c.toNat := by
  by_cases hwide : ∃ c ∈ cs, 0xff < c.toNat
  · refine iff_of_true (redecode_of_wide ?_) (.inr hwide)
    obtain ⟨c, hc, hlt⟩ := hwide
    by_contra hno
    have hle : c.toNat ≤ 0xff := by
      apply toNat_le_of_utf16
      intro u hu
      by_contra hlt'
      exact hno ⟨u, List.mem_flatMap.mpr ⟨c, hc, hu⟩, Nat.lt_of_not_le hlt'⟩
    exact absurd hlt (Nat.not_lt.mpr hle)
  · rw [or_iff_left hwide]
    have hbytes : ∀ c ∈ cs, c.toNat ≤ 0xff :=
      fun c hc => Nat.le_of_not_lt fun hlt => hwide ⟨c, hc, hlt⟩
    -- the guess takes the string for one that was misread
    rw [text_eq_newString hbytes, redecode_of_bytes, utf8_newString_eq_iso88591_iff,
      List.forall_mem_map]
    refine forall₂_congr fun c hc => ?_
    show c.toNat % 2 ^ 8 < 0x80 ↔ _
    rw [Nat.mod_eq_of_lt (Nat.lt_succ_of_le (hbytes c hc))]

/-- The empty keyword, which is refused, is the empty keyword in both ways. -/
theorem isEmpty_of_received {s k : JString} (h : redecode rt k = s) (hk : Received rt s k) :
    k.isEmpty = s.isEmpty := by
  obtain rfl | rfl := hk
  · rfl
  · cases s with
    | nil => rfl
    | cons u s =>
      cases hm : misread rt (u :: s) with
      | nil =>
        rw [hm] at h
        exact absurd h (by simp [show redecode rt [] = [] from redecode_of_bytes []])
      | cons v k => rfl

/-- **When a keyword arrives.** For every well-formed keyword. -/
theorem keyword_repaired_iff (rt : Runtime) (cs : List Char) :
    KeywordRepaired rt (text cs) ↔ (∀ c ∈ cs, c.toNat < 0x80) ∨ ∃ c ∈ cs, 0xff < c.toNat := by
  rw [← redecode_text_iff rt]
  constructor
  · intro h
    exact h.converted (text cs) (.inl rfl)
  · intro h
    have hboth : ∀ k, Received rt (text cs) k → redecode rt k = text cs := by
      rintro k (rfl | rfl)
      · exact h
      · exact redecode_misread cs
    refine ⟨hboth, ?_, ?_⟩
    · intro k hk w user email now newId
      have hempty := isEmpty_of_received (hboth k hk) hk
      unfold HomeController.createsubscribe createsubscribe
      dsimp only
      rw [hempty, hboth k hk, id]
    · intro k hk findAll
      rw [SearchController.query, hboth k hk]

/-- A runtime without GBK where each byte that is no character becomes one U+FFFD. -/
def plainRuntime : Runtime := ⟨fun _ => 0, none⟩

/-- **A correct keyword is destroyed.** The é of a correctly decoded keyword is taken for a
byte that is no character. And Ã© becomes é, as it should if it was misread: the string is
the same in both cases. -/
theorem keyword_destroyed :
    redecode plainRuntime (text "caf\u00e9".toList) = text "caf\ufffd".toList ∧
      ¬ KeywordRepaired plainRuntime (text "caf\u00e9".toList) ∧
      redecode plainRuntime (text "\u00c3\u00a9".toList) = text "\u00e9".toList ∧
      misread plainRuntime (text "\u00e9".toList) = text "\u00c3\u00a9".toList := by
  refine ⟨by decide +kernel, ?_, by decide +kernel, by decide +kernel⟩
  intro h
  have hkept := h.converted _ (.inl rfl)
  exact absurd hkept (by decide +kernel)

end

end SpringReader
