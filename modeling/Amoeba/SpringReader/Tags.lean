import Amoeba.Markup.Basic
import Amoeba.SpringReader.Html

/-!
# Tags in the text of an article

`delTagsFContent` takes out what matches `</?[a-zA-Z]+[^><]*>`, in one pass from left to
right. An article of the result page and an entry of an email show the beginning of the
description without its tags; link and title are shown as the feed has them.

* `removes_delTagsFContent` — the loop is one pass over the tags.
* `tags_removed_iff` — no tag is left, a second pass changes nothing, and no tag of the
  feed is shown, if and only if no two brackets of the description close around a tag
  and the rest of a tag's content, and link and title have no tags.
-/

namespace SpringReader

open Java Markup

/-! ### The pattern -/

/-- The brackets of `</?[a-zA-Z]+[^><]*>`, and what the pattern asks for in between:
a slash or none, letters, and anything. -/
def htmlTags : Brackets UInt16 where
  left := 0x3c
  right := 0x3e
  ne := by decide
  content w := ∃ slash letters rest, w = slash ++ letters ++ rest ∧
    (slash = [] ∨ slash = [0x2f]) ∧ letters ≠ [] ∧ ∀ c ∈ letters, isLetter c = true

/-- The content of a tag by its first characters. -/
theorem content_iff {w : JString} : htmlTags.content w ↔
    (∃ c w', w = c :: w' ∧ isLetter c = true) ∨
      ∃ c w', w = 0x2f :: c :: w' ∧ isLetter c = true := by
  constructor
  · rintro ⟨slash, letters, rest, rfl, hslash, hne, hletters⟩
    obtain ⟨c, letters, rfl⟩ := List.exists_cons_of_ne_nil hne
    have hc := hletters c List.mem_cons_self
    obtain rfl | rfl := hslash
    · exact .inl ⟨c, letters ++ rest, rfl, hc⟩
    · exact .inr ⟨c, letters ++ rest, rfl, hc⟩
  · have hone : ∀ c, isLetter c = true → ∀ d ∈ [c], isLetter d = true := by
      intro c hc d hd
      rwa [List.mem_singleton.mp hd]
    rintro (⟨c, w', rfl, hc⟩ | ⟨c, w', rfl, hc⟩)
    · exact ⟨[], [c], w', rfl, .inl rfl, List.cons_ne_nil c [], hone c hc⟩
    · exact ⟨[0x2f], [c], w', rfl, .inr rfl, List.cons_ne_nil c [], hone c hc⟩

/-! ### The loop -/

theorem closeTag_eq_some_iff {s r : JString} :
    closeTag s = some r ↔ ∃ w, s = w ++ 0x3e :: r ∧ htmlTags.Plain w := by
  -- along the search for the bracket
  induction s with
  | nil =>
    refine iff_of_false (by simp [closeTag]) ?_
    rintro ⟨w, h, -⟩
    exact absurd h (by simp)
  | cons c s ih =>
    rw [closeTag]
    by_cases hright : c = 0x3e
    · rw [if_pos hright, Option.some.injEq]
      constructor
      · rintro rfl
        exact ⟨[], congrArg (· :: s) hright, Brackets.plain_nil⟩
      · rintro ⟨w, h, hw⟩
        cases w with
        | nil => exact (List.cons.inj h).2
        | cons d w =>
          obtain ⟨rfl, -⟩ := List.cons.inj h
          exact absurd hright (Brackets.plain_cons.mp hw).2.1
    · rw [if_neg hright]
      by_cases hleft : c = 0x3c
      · rw [if_pos hleft]
        refine iff_of_false (by simp) ?_
        rintro ⟨w, h, hw⟩
        cases w with
        | nil => exact absurd (List.cons.inj h).1 hright
        | cons d w =>
          obtain ⟨rfl, -⟩ := List.cons.inj h
          exact absurd hleft (Brackets.plain_cons.mp hw).1
      · rw [if_neg hleft, ih]
        constructor
        · rintro ⟨w, rfl, hw⟩
          exact ⟨c :: w, rfl, Brackets.plain_cons.mpr ⟨hleft, hright, hw⟩⟩
        · rintro ⟨w, h, hw⟩
          cases w with
          | nil => exact absurd (List.cons.inj h).1 hright
          | cons d w =>
            obtain ⟨rfl, rfl⟩ := List.cons.inj h
            exact ⟨w, rfl, (Brackets.plain_cons.mp hw).2.2⟩

theorem tagEnd_slash (c : UInt16) (s : JString) :
    tagEnd (0x3c :: 0x2f :: c :: s) = if isLetter c then closeTag s else none := rfl

theorem tagEnd_letter {c : UInt16} {s : JString} (hc : isLetter c = true) :
    tagEnd (0x3c :: c :: s) = closeTag s := by
  unfold tagEnd
  split
  -- a slash is no letter
  next d s' heq =>
    obtain ⟨rfl, -⟩ := List.cons.inj (List.cons.inj heq).2
    exact absurd hc (by decide)
  next d s' _ heq =>
    obtain ⟨rfl, rfl⟩ := List.cons.inj (List.cons.inj heq).2
    exact if_pos hc
  next _ hno => exact absurd rfl (hno c s)

theorem plain_of_isLetter {c : UInt16} {w : JString} (hc : isLetter c = true)
    (hw : htmlTags.Plain w) : htmlTags.Plain (c :: w) := by
  refine Brackets.plain_cons.mpr ⟨?_, ?_, hw⟩
  · rintro rfl
    exact absurd hc (by decide)
  · rintro rfl
    exact absurd hc (by decide)

/-- **One step of the loop**: what is behind the tag at the start of the text. -/
theorem tagEnd_eq_some_iff {s r : JString} :
    tagEnd s = some r ↔ ∃ τ, s = τ ++ r ∧ htmlTags.Tag τ := by
  constructor
  · intro h
    unfold tagEnd at h
    split at h
    -- a closing tag
    next c s =>
      by_cases hc : isLetter c = true
      · rw [if_pos hc] at h
        obtain ⟨w, rfl, hw⟩ := closeTag_eq_some_iff.mp h
        refine ⟨0x3c :: (0x2f :: c :: w) ++ [0x3e], by simp, 0x2f :: c :: w, rfl, ?_, ?_⟩
        · exact Brackets.plain_cons.mpr ⟨by decide, by decide, plain_of_isLetter hc hw⟩
        · exact content_iff.mpr (.inr ⟨c, w, rfl, hc⟩)
      · rw [if_neg hc] at h
        exact absurd h (by simp)
    -- an opening tag
    next c s _ =>
      by_cases hc : isLetter c = true
      · rw [if_pos hc] at h
        obtain ⟨w, rfl, hw⟩ := closeTag_eq_some_iff.mp h
        refine ⟨0x3c :: (c :: w) ++ [0x3e], by simp, c :: w, rfl, ?_, ?_⟩
        · exact plain_of_isLetter hc hw
        · exact content_iff.mpr (.inl ⟨c, w, rfl, hc⟩)
      · rw [if_neg hc] at h
        exact absurd h (by simp)
    next => exact absurd h (by simp)
  · rintro ⟨τ, rfl, w, rfl, hw, hcontent⟩
    have hclose : ∀ w', htmlTags.Plain w' → closeTag (w' ++ 0x3e :: r) = some r := by
      intro w' hw'
      exact closeTag_eq_some_iff.mpr ⟨w', rfl, hw'⟩
    obtain ⟨c, w', rfl, hc⟩ | ⟨c, w', rfl, hc⟩ := content_iff.mp hcontent
    · have hw' := (Brackets.plain_cons.mp hw).2.2
      show tagEnd (0x3c :: c :: (w' ++ [0x3e] ++ r)) = some r
      rw [tagEnd_letter hc, List.append_assoc, List.singleton_append, hclose w' hw']
    · have hw' := (Brackets.plain_cons.mp (Brackets.plain_cons.mp hw).2.2).2.2
      show tagEnd (0x3c :: 0x2f :: c :: (w' ++ [0x3e] ++ r)) = some r
      rw [tagEnd_slash, if_pos hc, List.append_assoc, List.singleton_append, hclose w' hw']

/-- **The loop is one pass over the tags.** -/
theorem removes_stripTags {n : Nat} {s : JString} (hn : s.length ≤ n) :
    htmlTags.Removes s (stripTags n s) := by
  induction n generalizing s with
  | zero =>
    obtain rfl := List.length_eq_zero_iff.mp (Nat.le_zero.mp hn)
    exact .nil
  | succ n ih =>
    cases s with
    | nil => exact .nil
    | cons c s =>
      rw [stripTags]
      cases hend : tagEnd (c :: s) with
      | some rest =>
        obtain ⟨τ, heq, hτ⟩ := tagEnd_eq_some_iff.mp hend
        rw [heq]
        refine .tag hτ (ih ?_)
        -- a tag is not empty
        obtain ⟨τ', rfl, -⟩ := hτ.eq_cons
        have hlen := congrArg List.length heq
        rw [List.length_append, List.length_cons] at hlen
        rw [List.length_cons] at hn hlen
        omega
      | none =>
        refine .keep ?_ (ih (Nat.le_of_succ_le_succ hn))
        rintro ⟨τ, r, heq, hτ⟩
        rw [tagEnd_eq_some_iff.mpr ⟨τ, heq, hτ⟩] at hend
        exact absurd hend (by simp)

theorem removes_delTagsFContent (content : JString) :
    htmlTags.Removes content (delTagsFContent content) := removes_stripTags (Nat.le_refl _)

/-! ### What is shown -/

/-- `Article`, an entry of a result page. -/
structure Article where
  uuid : Option JString
  feedname : Option JString
  timestamp : JString
  title : Option JString
  link : Option JString
  description : JString
  deriving DecidableEq, Repr

/-- The entry that `queryKeywordResultInPage` makes of an article. Without a description
there is a `NullPointerException`, and the article is passed over. -/
def hitArticle (reformat : JString → Option JString) (uuid : Option JString) (hit : Hit) :
    Option Article :=
  hit.description.map fun description =>
    { uuid := uuid
      feedname := hit.feedname
      timestamp := toDateStringFromIso reformat hit.timestamp
      title := hit.title
      link := hit.link
      description := subString (delTagsFContent description) 140 }

/-- The entries of a result page: `queryKeywordResultInPage`, on the answer of the
search. -/
def queryKeywordResultInPage (reformat : JString → Option JString)
    (hits : List (Option JString × Hit)) : List Article :=
  hits.filterMap fun (uuid, hit) => hitArticle reformat uuid hit

/-- What an entry of a result page shows of the feed. -/
def Article.feedTexts (a : Article) : List JString :=
  a.link.toList ++ a.title.toList ++ [a.description]

/-- What an entry of an email shows of the feed, in the order of `hitHtml`. -/
def mailTexts (hit : Hit) : List JString :=
  concat hit.link :: concat hit.title ::
    (hit.description.map fun description => subString (delTagsFContent description) 140).toList

/-- **Tag removal is complete** for an article with this description: no tag is left, so
that removing again changes nothing, and what is shown of the feed has no tag. -/
structure TagsRemoved (hit : Hit) (description : JString) : Prop where
  complete : ¬ htmlTags.HasTag (delTagsFContent description)
  idempotent : delTagsFContent (delTagsFContent description) = delTagsFContent description
  page : ∀ reformat hits uuid, (uuid, hit) ∈ hits → ∃ a ∈ queryKeywordResultInPage reformat hits,
    hitArticle reformat uuid hit = some a ∧ ∀ text ∈ a.feedTexts, ¬ htmlTags.HasTag text
  mail : ∀ text ∈ mailTexts hit, ¬ htmlTags.HasTag text

/-- Link and title have no tags of their own. -/
def Hit.PlainHead (hit : Hit) : Prop :=
  ∀ text ∈ hit.link.toList ++ hit.title.toList, ¬ htmlTags.HasTag text

theorem delTagsFContent_eq_self_iff {s : JString} :
    delTagsFContent s = s ↔ ¬ htmlTags.HasTag s := by
  rw [← Brackets.removes_self_iff]
  constructor
  · intro h
    have hself := removes_delTagsFContent s
    rwa [h] at hself
  · intro h
    exact (removes_delTagsFContent s).unique h

/-- What stands for a missing field has no tag. -/
theorem not_hasTag_concat {x : Option JString} (h : ∀ text ∈ x.toList, ¬ htmlTags.HasTag text) :
    ¬ htmlTags.HasTag (concat x) := by
  cases x with
  | none =>
    rw [← delTagsFContent_eq_self_iff]
    decide
  | some text => exact h text (by simp)

theorem not_hasTag_subString {s : JString} (h : ¬ htmlTags.HasTag s) (n : Nat) :
    ¬ htmlTags.HasTag (subString s n) := by
  intro htag
  unfold subString at htag
  split at htag
  next => exact h htag
  next => exact h (htag.of_infix (List.take_prefix n s).isInfix)

/-- **When tag removal is complete.** For every article with a description. -/
theorem tags_removed_iff {hit : Hit} {description : JString}
    (h : hit.description = some description) :
    TagsRemoved hit description ↔ ¬ htmlTags.Reassembles description ∧ hit.PlainHead := by
  have hleft := Brackets.hasTag_iff (removes_delTagsFContent description)
  constructor
  · intro hremoved
    refine ⟨mt hleft.mpr hremoved.complete, ?_⟩
    obtain ⟨a, -, ha, hshown⟩ := hremoved.page (fun _ => none) [(none, hit)] none (by simp)
    rw [hitArticle, h, Option.map_some, Option.some.injEq] at ha
    subst ha
    intro text htext
    exact hshown text (List.mem_append_left _ htext)
  · rintro ⟨hno, hhead⟩
    have hcomplete := mt hleft.mp hno
    have hshort := not_hasTag_subString hcomplete 140
    refine ⟨hcomplete, delTagsFContent_eq_self_iff.mpr hcomplete, ?_, ?_⟩
    · intro reformat hits uuid hmem
      have ha : hitArticle reformat uuid hit = some ⟨uuid, hit.feedname,
          toDateStringFromIso reformat hit.timestamp, hit.title, hit.link,
          subString (delTagsFContent description) 140⟩ := by
        rw [hitArticle, h, Option.map_some]
      refine ⟨_, List.mem_filterMap.mpr ⟨(uuid, hit), hmem, ha⟩, ha, ?_⟩
      intro text htext
      obtain htext | htext := List.mem_append.mp htext
      · exact hhead text htext
      · rw [List.mem_singleton.mp htext]
        exact hshort
    · intro text htext
      rw [mailTexts, h, Option.map_some, Option.toList_some, List.mem_cons, List.mem_cons,
        List.mem_singleton] at htext
      obtain rfl | rfl | rfl := htext
      · exact not_hasTag_concat fun text htext => hhead text (List.mem_append_left _ htext)
      · exact not_hasTag_concat fun text htext => hhead text (List.mem_append_right _ htext)
      · exact hshort

/-- An article with this description, and nothing else. -/
def described (description : JString) : Hit := ⟨none, none, some description, none, none⟩

/-- A text with an image and a paragraph. -/
theorem tags_removed_paragraph :
    TagsRemoved (described (lit "a <img src=x>b</p> < c")) (lit "a <img src=x>b</p> < c") := by
  refine (tags_removed_iff rfl).mpr ⟨?_, by simp [Hit.PlainHead, described]⟩
  rw [← Brackets.hasTag_iff (removes_delTagsFContent _), ← delTagsFContent_eq_self_iff]
  decide +kernel

/-- **A tag around a tag.** Without the inner one the outer one is complete: the first pass
leaves it, and the second one takes it out. -/
theorem nested_tag_remains :
    delTagsFContent (lit "<<b>script>x") = lit "<script>x" ∧
      delTagsFContent (lit "<script>x") = lit "x" ∧
      htmlTags.HasTag (delTagsFContent (lit "<<b>script>x")) ∧
      ¬ TagsRemoved (described (lit "<<b>script>x")) (lit "<<b>script>x") := by
  have hfirst : delTagsFContent (lit "<<b>script>x") = lit "<script>x" := by decide +kernel
  have hsecond : delTagsFContent (lit "<script>x") = lit "x" := by decide +kernel
  have htag : htmlTags.HasTag (delTagsFContent (lit "<<b>script>x")) := by
    rw [hfirst]
    by_contra hno
    rw [← delTagsFContent_eq_self_iff, hsecond] at hno
    exact absurd hno (by decide)
  exact ⟨hfirst, hsecond, htag, fun h => h.complete htag⟩

end SpringReader
