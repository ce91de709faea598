import Amoeba.SpringReader.Keywords

/-!
# The text of an email

`QueryByElasticsearch`: the articles that a query has found as a piece of HTML, and
the page around the pieces. The search itself is code of a library, and its answer
is an argument here.

* `querySingleKeywordHtmlResult_eq_none` — a query throws if and only if the search
  does, or it has found an article without a description.
-/

namespace SpringReader

open Java

/-- An article as the search returns it. A field can be missing. -/
structure Hit where
  link : Option JString
  title : Option JString
  description : Option JString
  feedname : Option JString
  timestamp : Option JString
  deriving DecidableEq, Repr

/-- The answer of a search: the articles of the page, and the number of all. -/
structure SearchHits where
  hits : List Hit
  totalHits : Nat
  deriving DecidableEq, Repr

/-! ### Pieces of text -/

/-- A letter of the class `[a-zA-Z]`. -/
def isLetter (c : UInt16) : Bool := (0x61 ≤ c && c ≤ 0x7a) || (0x41 ≤ c && c ≤ 0x5a)

/-- What is behind the `>` that ends a tag. -/
def closeTag : JString → Option JString
  | [] => none
  | c :: s => if c = 0x3e then some s else if c = 0x3c then none else closeTag s

/-- What is behind a match of `</?[a-zA-Z]+[^><]*>` at the start. -/
def tagEnd : JString → Option JString
  | 0x3c :: 0x2f :: c :: s => if isLetter c then closeTag s else none
  | 0x3c :: c :: s => if isLetter c then closeTag s else none
  | _ => none

/-- The text without its tags. A tag is taken out as a whole, so that the number of
characters bounds the number of steps. -/
def stripTags : Nat → JString → JString
  | 0, s => s
  | _, [] => []
  | n + 1, c :: s =>
    match tagEnd (c :: s) with
    | some rest => stripTags n rest
    | none => c :: stripTags n s

/-- `CommonConverter.delTagsFContent` -/
def delTagsFContent (content : JString) : JString := stripTags content.length content

/-- `subString` -/
def subString (string : JString) (length : Nat) : JString :=
  if string.length ≤ length then string else string.take length

/-- `CommonConverter.toDateStringFromIso`. The two date formats are those of the
standard library: the argument gives the date in the second one, or nothing when it
cannot be parsed by the first. -/
def toDateStringFromIso (reformat : JString → Option JString) : Option JString → JString
  | none => []
  | some sdate =>
    if sdate = lit "null" ∨ sdate = lit "NULL" ∨ sdate = [] then [] else (reformat sdate).getD []

/-! ### The results of a keyword -/

/-- The entry of an article. Without a description there is a
`NullPointerException`. -/
def hitHtml (reformat : JString → Option JString) (hit : Hit) : Option JString :=
  hit.description.map fun description =>
    lit "<li><a href=\"" ++ concat hit.link ++ lit "\" target=\"_blank\">" ++ concat hit.title ++
      lit "</a><br/><font>" ++ subString (delTagsFContent description) 140 ++ lit "</font><p>" ++
      concat hit.feedname ++ lit " • " ++ toDateStringFromIso reformat hit.timestamp ++
      lit "</p></li>"

/-- `querySingleKeywordHtmlResult`, on the answer of the search; `none` stands for an
exception. -/
def querySingleKeywordHtmlResult (reformat : JString → Option JString) (keyword : JString)
    (size : Nat) (answer : Option SearchHits) : Option JString :=
  answer.bind fun shs =>
    (shs.hits.mapM (hitHtml reformat)).map fun items =>
      lit "<div class=\"mail-txt\"><div class=\"mail-titile\">" ++ keyword ++ lit "(" ++
        lit (toString (if shs.totalHits > size then size else shs.totalHits)) ++
        lit "条内容更新)" ++ lit "</span></div><ul>" ++ items.flatten ++ lit "</ul></div>"

theorem mapM_eq_none {α β : Type*} {f : α → Option β} {l : List α} :
    l.mapM f = none ↔ ∃ x ∈ l, f x = none := by
  induction l with
  | nil => simp
  | cons x l ih =>
    rw [List.mapM_cons, List.exists_mem_cons_iff, ← ih]
    cases hx : f x with
    | none => simp
    | some y => cases hl : l.mapM f <;> simp

/-- **The queries that throw.** -/
theorem querySingleKeywordHtmlResult_eq_none {reformat : JString → Option JString}
    {keyword : JString} {size : Nat} {answer : Option SearchHits} :
    querySingleKeywordHtmlResult reformat keyword size answer = none ↔
      ∀ shs, answer = some shs → ∃ hit ∈ shs.hits, hit.description = none := by
  cases answer with
  | none => exact iff_of_true rfl (by simp)
  | some shs =>
    rw [querySingleKeywordHtmlResult, Option.bind_some, Option.map_eq_none_iff, mapM_eq_none]
    simp [hitHtml]

/-- `wrapKeywordsHtmlReasult` -/
def wrapKeywordsHtmlReasult (title htmlString : JString) : JString :=
  lit ("<!DOCTYPE html><head><meta http-equiv=\"Content-Type\" content=\"text/html; charset=utf-8\" " ++
    "/><title>邮件内容</title><style type=\"text/css\">body\x7bfont-family: Helvetica,\"Microsoft " ++
    "YaHei\",Arial,sans-serif;\x7dul,li\x7bmargin:0;padding:0;list-style:none;\x7d.mail\x7b " ++
    "margin:0 0; overflow:hidden;\x7d.mail-top\x7b height:70px; line-height:70px; color:#444;" ++
    " font-size:20px; font-weight:700;\x7d.mail-titile\x7bheight:40px; background:#f5f5f5;" ++
    " line-height:40px; color:#444; font-weight:bold; padding-left:10px;\x7d.mail-txt\x7b " ++
    "margin-bottom:30px; overflow:hidden;\x7d.mail-line\x7bborder-bottom:1px solid #e4e4e4;" ++
    " padding-bottom:30px; margin-bottom:10px;\x7d.more\x7bmargin-bottom:30px;\x7d .more " ++
    "a\x7bcolor:#2d64b3;\x7d.mail li\x7bmargin-top:25px; padding-right:15px;\x7d.mail font\x7bfont-size:14px;" ++
    " line-height:26px; color:#666;\x7d .right-sidebar p ,.mail p\x7bcolor:#999;font-size:14px;" ++
    "margin:0;\x7d.mail li a\x7bfont-size:16px; color:#2d64b3; font-weight:bold; line-height:24px;" ++
    "text-decoration:none;\x7d</style></head><body><div class=\"mail\"><div class=\"mail-top\">") ++
    title ++ lit "</div>" ++ htmlString ++
    lit ("<div class=\"more\"><a href=\"http://106.186.120.119:8080/SpringReader/\">订阅更多内容</a></div>" ++
      "</div></body></html>")

end SpringReader
