import Amoeba.Java.Integer
import Amoeba.Java.DateFormat
import Mathlib.Data.List.Basic

/-!
# Paging through the articles of a user

`UserArticlesController.list` makes a page number and a page size from the parameters of
the request, asks `UserArticlesService.findAll` for this page, and puts links to other
pages into the answer, which `PaginationInfo` computes from the number of all articles.

The service gives the whole list as the content of each page. The link to the last page
goes to page 0 when there is no article, and this page is refused.

* `pagesThrough_iff` — following the links shows each article once, and all links work, if
  and only if there is an article and all of them fit on one page.
-/

namespace SpringReader

open Java

/-! ### The handler -/

/-- `UserArticle`, as it is stored. -/
structure UserArticle where
  id : JString
  articleuuid : JString
  username : JString
  readdate : Option Java.Date
  status : JString
  keyword : JString
  deriving DecidableEq, Repr

/-- A `PageRequest`: the number counts from zero. -/
structure PageRequest where
  page : Int32
  size : Int32

/-- `new PageRequest(page, size)`; `none` stands for an exception. -/
def PageRequest.new (page size : Int32) : Option PageRequest :=
  if page < 0 then none else if size < 1 then none else some ⟨page, size⟩

/-- A `PageImpl` of articles. -/
structure Page where
  content : List UserArticle
  totalElements : Int64
  deriving DecidableEq, Repr

/-- `UserArticlesRepository.findByUsername` -/
def UserArticlesRepository.findByUsername (repo : List UserArticle) (name : JString) :
    List UserArticle :=
  repo.filter (·.username = name)

/-- `UserArticlesService.findAll` -/
def UserArticlesService.findAll (repo : List UserArticle) (_ : PageRequest) (name : JString) :
    Page :=
  let list := UserArticlesRepository.findByUsername repo name
  ⟨list, (Int32.ofNat list.length).toInt64⟩

/-- `PaginationInfo` -/
structure PaginationInfo where
  begin_ : Int32
  end_ : Int64
  previous : Int32
  next : Int32
  nextPage : JString
  previousPage : JString
  firstPage : JString
  lastPage : JString
  deriving DecidableEq, Repr

/-- The text of a link to a page. -/
def pageLink (listAction : JString) (page : Int) (pageSize : Int32) : JString :=
  listAction ++ lit "?" ++ lit "page" ++ lit "=" ++ decimal page ++ lit "&" ++ lit "pageSize" ++
    lit "=" ++ decimal pageSize.toInt

/-- `new PaginationInfo(current, totalRecords, pageSize, listAction)` -/
def PaginationInfo.new (current : Int32) (totalRecords : Int64) (pageSize : Int32)
    (listAction : JString) : PaginationInfo :=
  let previous := if 1 < current - 1 then current - 1 else 1
  let next := if (current * pageSize).toInt64 < totalRecords then current + 1 else current
  let begin_ : Int32 := 1
  let end_ :=
    if totalRecords % pageSize.toInt64 = 0 then totalRecords / pageSize.toInt64
    else totalRecords / pageSize.toInt64 + 1
  { begin_, end_, previous, next
    nextPage := pageLink listAction next.toInt pageSize
    previousPage := pageLink listAction previous.toInt pageSize
    firstPage := pageLink listAction begin_.toInt pageSize
    lastPage := pageLink listAction end_.toInt pageSize }

/-- What is shown. -/
structure ListPage where
  articles : List UserArticle
  pageInfo : PaginationInfo
  deriving DecidableEq, Repr

/-- `UserArticlesController.list`; `none` stands for an exception. -/
def UserArticlesController.list (repo : List UserArticle) (name : JString)
    (page pageSize : Option JString) : Option ListPage :=
  (match pageSize with | some s => parseInt s | none => some 20).bind fun pageLimit =>
  (match page with | some s => parseInt s | none => some 1).bind fun currentPage =>
  (PageRequest.new (currentPage - 1) pageLimit).map fun pageable =>
    let articles := UserArticlesService.findAll repo pageable name
    ⟨articles.content,
      PaginationInfo.new currentPage articles.totalElements pageLimit (lit "/list")⟩

/-! ### Following a link -/

/-- A parameter in the query of a link in which nothing is escaped. -/
def parameter (link name : JString) : Option JString :=
  (((link.dropWhile (· ≠ 0x3F)).drop 1).splitOn 0x26).findSome? fun part =>
    if part.takeWhile (· ≠ 0x3D) = name then some ((part.dropWhile (· ≠ 0x3D)).drop 1) else none

/-- A link is opened. -/
def follow (repo : List UserArticle) (name link : JString) : Option ListPage :=
  UserArticlesController.list repo name (parameter link (lit "page"))
    (parameter link (lit "pageSize"))

/-- The links of a page. -/
def ListPage.links (p : ListPage) : List JString :=
  [p.pageInfo.firstPage, p.pageInfo.previousPage, p.pageInfo.nextPage, p.pageInfo.lastPage]

/-- The pages that are shown when the link to the next page is followed, from the page
behind this link up to one that leads to itself. -/
inductive Walk (repo : List UserArticle) (name : JString) : JString → List ListPage → Prop
  | last {link : JString} {p : ListPage} :
      follow repo name link = some p → p.pageInfo.nextPage = link → Walk repo name link [p]
  | next {link : JString} {p : ListPage} {ps : List ListPage} :
      follow repo name link = some p → p.pageInfo.nextPage ≠ link →
      Walk repo name p.pageInfo.nextPage ps → Walk repo name link (p :: ps)

/-- A walk has one outcome. -/
theorem Walk.unique {repo : List UserArticle} {name link : JString} {ps ps' : List ListPage}
    (h : Walk repo name link ps) (h' : Walk repo name link ps') : ps = ps' := by
  induction h generalizing ps' with
  | last hp hself =>
    cases h' with
    | last hp' _ => rw [Option.some.inj (hp.symm.trans hp')]
    | next hp' hne _ =>
      obtain rfl := Option.some.inj (hp.symm.trans hp')
      exact absurd hself hne
  | next hp hne _ ih =>
    cases h' with
    | last hp' hself =>
      obtain rfl := Option.some.inj (hp.symm.trans hp')
      exact absurd hself hne
    | next hp' _ hrest =>
      obtain rfl := Option.some.inj (hp.symm.trans hp')
      rw [ih hrest]

/-! ### Reading a link back -/

theorem dropWhile_append_cons {a b : JString} {c : UInt16} (h : c ∉ a) :
    (a ++ c :: b).dropWhile (· ≠ c) = c :: b := by
  induction a with
  | nil => simp
  | cons x a ih =>
    obtain ⟨hx, ha⟩ := not_or.mp (mt List.mem_cons.mpr h)
    rw [List.cons_append, List.dropWhile_cons_of_pos (by simpa using Ne.symm hx)]
    exact ih ha

theorem takeWhile_append_cons {a b : JString} {c : UInt16} (h : c ∉ a) :
    (a ++ c :: b).takeWhile (· ≠ c) = a := by
  induction a with
  | nil => simp
  | cons x a ih =>
    obtain ⟨hx, ha⟩ := not_or.mp (mt List.mem_cons.mpr h)
    rw [List.cons_append, List.takeWhile_cons_of_pos (by simpa using Ne.symm hx), ih ha]

/-- The two parameters of a link. -/
theorem parameter_pageLink (page : Int) (pageSize : Int32) :
    parameter (pageLink (lit "/list") page pageSize) (lit "page") = some (decimal page) ∧
      parameter (pageLink (lit "/list") page pageSize) (lit "pageSize") =
        some (decimal pageSize.toInt) := by
  -- the text of the link, cut at its signs
  have hlink : pageLink (lit "/list") page pageSize =
      lit "/list" ++ 0x3F :: ((lit "page" ++ 0x3D :: decimal page) ++
        0x26 :: (lit "pageSize" ++ 0x3D :: decimal pageSize.toInt)) := by
    simp [pageLink, lit]
  -- neither part has an ampersand, so the query is split between them
  have hpage : (0x26 : UInt16) ∉ lit "page" ++ 0x3D :: decimal page := by
    have hdecimal : (0x26 : UInt16) ∉ decimal page := notMem_decimal (by decide) (by decide)
    simp [lit, hdecimal]
  have hsize : (0x26 : UInt16) ∉ lit "pageSize" ++ 0x3D :: decimal pageSize.toInt := by
    have hdecimal : (0x26 : UInt16) ∉ decimal pageSize.toInt :=
      notMem_decimal (by decide) (by decide)
    simp [lit, hdecimal]
  have hparts : ((((pageLink (lit "/list") page pageSize).dropWhile (· ≠ 0x3F)).drop 1).splitOn 0x26) =
      [lit "page" ++ 0x3D :: decimal page, lit "pageSize" ++ 0x3D :: decimal pageSize.toInt] := by
    rw [hlink, dropWhile_append_cons (by decide), List.drop_one, List.tail_cons,
      List.splitOn_append_cons_self, List.splitOn_eq_singleton hpage,
      List.splitOn_eq_singleton hsize]
    rfl
  unfold parameter
  rw [hparts]
  simp only [List.findSome?_cons, List.findSome?_nil,
    takeWhile_append_cons (show (0x3D : UInt16) ∉ lit "page" by decide),
    takeWhile_append_cons (show (0x3D : UInt16) ∉ lit "pageSize" by decide),
    dropWhile_append_cons (show (0x3D : UInt16) ∉ lit "page" by decide),
    dropWhile_append_cons (show (0x3D : UInt16) ∉ lit "pageSize" by decide)]
  have hne : lit "page" ≠ lit "pageSize" := by decide
  simp [hne]

/-! ### The numbers of the links -/

/-- The number of pages that are not empty. -/
def pageCount (n size : Nat) : Nat := (n + size - 1) / size

/-- There is a next page. -/
theorem mul_lt_iff_lt_pageCount {n size k : Nat} (hsize : 1 ≤ size) :
    k * size < n ↔ k < pageCount n size := by
  unfold pageCount
  rw [← Nat.succ_le_iff, ← Nat.succ_le_iff, Nat.le_div_iff_mul_le hsize, Nat.succ_mul]
  omega

theorem pageCount_eq {n size : Nat} (hsize : 1 ≤ size) :
    (if n % size = 0 then n / size else n / size + 1) = pageCount n size := by
  have hdecomp := Nat.div_add_mod n size
  have hlt := Nat.mod_lt n hsize
  unfold pageCount
  symm
  split
  next h =>
    -- both are the quotient that is rounded up
    rw [Nat.div_eq_iff hsize]
    rw [h, Nat.add_zero, Nat.mul_comm] at hdecomp
    omega
  next h =>
    rw [Nat.div_eq_iff hsize, Nat.add_mul, Nat.one_mul]
    rw [Nat.mul_comm] at hdecomp
    omega

theorem pageCount_le (n size : Nat) : pageCount n size ≤ n := by
  rcases Nat.eq_zero_or_pos size with rfl | hsize
  · simp [pageCount]
  · apply Nat.le_of_not_lt
    intro hlt
    -- more pages than articles would not all be filled
    have hmul := (mul_lt_iff_lt_pageCount hsize).mpr hlt
    exact absurd (Nat.le_mul_of_pos_right n hsize) (Nat.not_le.mpr hmul)

/-- **The links of a page.** -/
theorem paginationInfo_links {k n size : Nat} (hk : 1 ≤ k) (hsize : 1 ≤ size)
    (hmul : k * size < 2 ^ 31) (hn : n + size < 2 ^ 31) (listAction : JString) :
    let info := PaginationInfo.new (Int32.ofNat k) (Int64.ofNat n) (Int32.ofNat size) listAction
    info.firstPage = pageLink listAction 1 (Int32.ofNat size) ∧
      info.previousPage = pageLink listAction (max (k - 1) 1 : Nat) (Int32.ofNat size) ∧
      info.nextPage = pageLink listAction (if k * size < n then k + 1 else k : Nat) (Int32.ofNat size) ∧
      info.lastPage = pageLink listAction (pageCount n size : Nat) (Int32.ofNat size) := by
  have hksize : k ≤ k * size := Nat.le_mul_of_pos_right k hsize
  -- no number of the constructor wraps
  have hwide : ∀ m : Nat, m < 2 ^ 31 → (Int32.ofNat m).toInt64 = Int64.ofNat m := fun m hm =>
    Int32.toInt64_ofNat' (by rw [Int32.toInt_maxValue]; omega)
  have hone : (1 : Int32) = Int32.ofNat 1 := rfl
  refine ⟨rfl, ?_, ?_, ?_⟩
  · -- one page back
    dsimp only [PaginationInfo.new]
    congr 1
    rw [hone, ← Int32.ofNat_sub k 1 hk]
    simp only [Int32.ofNat_lt_iff_lt (show 1 < 2 ^ 31 by decide) (show k - 1 < 2 ^ 31 by omega)]
    split
    · rw [Int32.toInt_ofNat_of_lt (by omega), Nat.max_eq_left (by omega)]
    · rw [Int32.toInt_ofNat_of_lt (by decide), Nat.max_eq_right (by omega)]
  · -- one page on
    dsimp only [PaginationInfo.new]
    congr 1
    rw [← Int32.ofNat_mul, hwide _ hmul]
    simp only [Int64.ofNat_lt_iff_lt (show k * size < 2 ^ 63 by omega) (show n < 2 ^ 63 by omega)]
    split
    · rw [hone, ← Int32.ofNat_add, Int32.toInt_ofNat_of_lt (by omega)]
    · rw [Int32.toInt_ofNat_of_lt (by omega)]
  · dsimp only [PaginationInfo.new]
    congr 1
    have hcount := pageCount_le n size
    have hmod : Int64.ofNat (n % size) = 0 ↔ n % size = 0 := by
      have hle := Nat.mod_le n size
      rw [← Int64.toInt_inj, Int64.toInt_ofNat_of_lt (by omega)]
      exact Int.natCast_eq_zero
    -- the last page, from the remainder and the quotient
    have hlast : (if Int64.ofNat n % Int64.ofNat size = 0 then Int64.ofNat n / Int64.ofNat size
        else Int64.ofNat n / Int64.ofNat size + 1) = Int64.ofNat (pageCount n size) := by
      rw [← Int64.ofNat_mod (by omega) (by omega), ← Int64.ofNat_div (by omega) (by omega),
        ← pageCount_eq hsize]
      by_cases h : n % size = 0
      · rw [if_pos (hmod.mpr h), if_pos h]
      · rw [if_neg (mt hmod.mp h), if_neg h, Int64.ofNat_add]
        rfl
    rw [hwide size (by omega), hlast, Int64.toInt_ofNat_of_lt (by omega)]

/-! ### Walks -/

section

variable {repo : List UserArticle} {name : JString} {size : Nat}

/-- The page with this number. -/
def pageAt (repo : List UserArticle) (name : JString) (size k : Nat) : ListPage :=
  let articles := UserArticlesRepository.findByUsername repo name
  ⟨articles, PaginationInfo.new (Int32.ofNat k) (Int32.ofNat articles.length).toInt64
    (Int32.ofNat size) (lit "/list")⟩

/-- **Opening a link**: each page from the first on is given, and page 0 is refused. -/
theorem follow_pageLink {k : Nat} (hsize : 1 ≤ size) (hsize' : size < 2 ^ 31) (hk : k < 2 ^ 31) :
    follow repo name (pageLink (lit "/list") k (Int32.ofNat size)) =
      if k = 0 then none else some (pageAt repo name size k) := by
  obtain ⟨hpage, hpageSize⟩ := parameter_pageLink k (Int32.ofNat size)
  have hone : (1 : Int32) = Int32.ofNat 1 := rfl
  have hlimit : ¬ Int32.ofNat size < 1 := by
    rw [hone, Int32.ofNat_lt_iff_lt hsize' (by decide)]
    omega
  rw [follow, hpage, hpageSize, Int32.toInt_ofNat_of_lt hsize', UserArticlesController.list]
  dsimp only
  -- both numbers are read back as they were written
  rw [parseInt_decimal hsize', parseInt_decimal hk, Option.bind_some, Option.bind_some,
    Int32.ofInt_eq_ofNat, Int32.ofInt_eq_ofNat]
  cases k with
  -- the index of page 0 is negative, and `PageRequest` refuses it
  | zero => rfl
  | succ k =>
    have hpositive : ¬ Int32.ofNat k < 0 := by
      rw [show (0 : Int32) = Int32.ofNat 0 from rfl, Int32.ofNat_lt_iff_lt (by omega) (by decide)]
      exact Nat.not_lt_zero k
    have hindex : Int32.ofNat (k + 1) - 1 = Int32.ofNat k := by
      rw [hone, ← Int32.ofNat_sub (k + 1) 1 (Nat.le_add_left 1 k), Nat.add_sub_cancel]
    rw [hindex, PageRequest.new, if_neg hpositive, if_neg hlimit, if_neg (Nat.succ_ne_zero k)]
    rfl

/-- Links to different pages differ. -/
theorem pageLink_inj {k k' : Nat} (h : pageLink (lit "/list") k (Int32.ofNat size) =
    pageLink (lit "/list") k' (Int32.ofNat size)) (hk : k < 2 ^ 31) (hk' : k' < 2 ^ 31) :
    k = k' := by
  have hpage := (parameter_pageLink k (Int32.ofNat size)).1
  rw [h, (parameter_pageLink k' (Int32.ofNat size)).1] at hpage
  -- a link determines the text of its number, and the text the number
  have hparse := congrArg parseInt (Option.some.inj hpage)
  rw [parseInt_decimal hk, parseInt_decimal hk'] at hparse
  have hint := congrArg Int32.toInt (Option.some.inj hparse)
  rw [Int32.toInt_ofInt_of_le (by omega) (by omega),
    Int32.toInt_ofInt_of_le (by omega) (by omega)] at hint
  exact (Int.ofNat_inj.mp hint).symm

/-- The links of the page with this number. -/
theorem pageAt_links {k : Nat} (hk : 1 ≤ k) (hsize : 1 ≤ size) (hmul : k * size < 2 ^ 31)
    (hn : (UserArticlesRepository.findByUsername repo name).length + size < 2 ^ 31) :
    let n := (UserArticlesRepository.findByUsername repo name).length
    let info := (pageAt repo name size k).pageInfo
    info.firstPage = pageLink (lit "/list") 1 (Int32.ofNat size) ∧
      info.previousPage = pageLink (lit "/list") (max (k - 1) 1 : Nat) (Int32.ofNat size) ∧
      info.nextPage =
        pageLink (lit "/list") (if k * size < n then k + 1 else k : Nat) (Int32.ofNat size) ∧
      info.lastPage = pageLink (lit "/list") (pageCount n size : Nat) (Int32.ofNat size) := by
  have hwide : (Int32.ofNat (UserArticlesRepository.findByUsername repo name).length).toInt64 =
      Int64.ofNat (UserArticlesRepository.findByUsername repo name).length :=
    Int32.toInt64_ofNat' (by rw [Int32.toInt_maxValue]; omega)
  have hlinks := paginationInfo_links hk hsize hmul hn (lit "/list")
  rw [← hwide] at hlinks
  exact hlinks

/-- All pages are within the range of the numbers. -/
theorem mul_lt_of_le_pageCount {n k : Nat} (hsize : 1 ≤ size) (hn : n + size < 2 ^ 31)
    (hk : k ≤ max 1 (pageCount n size)) : k * size < 2 ^ 31 := by
  rcases Nat.eq_zero_or_pos k with rfl | hpos
  · omega
  · obtain ⟨j, rfl⟩ := Nat.exists_eq_succ_of_ne_zero (Nat.ne_of_gt hpos)
    -- all pages before are full, so the last one adds at most a page
    rw [Nat.succ_mul]
    rcases Nat.eq_zero_or_pos j with rfl | hj
    · omega
    · have hlt : j * size < n := (mul_lt_iff_lt_pageCount hsize).mpr (by omega)
      omega

/-- **The walk from a page on** shows this page and all behind it, `d` in number. -/
theorem walk_from (hsize : 1 ≤ size)
    (hn : (UserArticlesRepository.findByUsername repo name).length + size < 2 ^ 31) {d k : Nat}
    (hk : 1 ≤ k)
    (hd : k + d =
      max 1 (pageCount (UserArticlesRepository.findByUsername repo name).length size)) :
    Walk repo name (pageLink (lit "/list") k (Int32.ofNat size))
      ((List.range' k (d + 1)).map (pageAt repo name size)) := by
  induction d generalizing k with
  | zero =>
    have hmul := mul_lt_of_le_pageCount (k := k) hsize hn (by omega)
    have hksize := Nat.le_mul_of_pos_right k hsize
    obtain ⟨-, -, hnext, -⟩ := pageAt_links hk hsize hmul hn
    -- the last page links to itself
    have hlast : ¬ k * size < (UserArticlesRepository.findByUsername repo name).length := by
      rw [mul_lt_iff_lt_pageCount hsize]
      omega
    refine .last (p := pageAt repo name size k) ?_ ?_
    · rw [follow_pageLink hsize (by omega) (by omega), if_neg (by omega)]
    · rw [hnext, if_neg hlast]
  | succ d ih =>
    have hmul := mul_lt_of_le_pageCount (k := k) hsize hn (by omega)
    have hmul' := mul_lt_of_le_pageCount (k := k + 1) hsize hn (by omega)
    have hksize := Nat.le_mul_of_pos_right k hsize
    have hksize' := Nat.le_mul_of_pos_right (k + 1) hsize
    obtain ⟨-, -, hnext, -⟩ := pageAt_links hk hsize hmul hn
    -- this page links to the next one, from where the walk goes on
    have hmore : k * size < (UserArticlesRepository.findByUsername repo name).length := by
      rw [mul_lt_iff_lt_pageCount hsize]
      omega
    rw [if_pos hmore] at hnext
    refine .next (p := pageAt repo name size k) ?_ ?_ ?_
    · rw [follow_pageLink hsize (by omega) (by omega), if_neg (by omega)]
    · rw [hnext]
      intro heq
      have := pageLink_inj heq (by omega) (by omega)
      omega
    · rw [hnext]
      exact ih (by omega) (by omega)

/-- **Which links work**: all but the one to the last page if there is no article. -/
theorem links_accepted_iff {k : Nat} (hk : 1 ≤ k) (hsize : 1 ≤ size)
    (hn : (UserArticlesRepository.findByUsername repo name).length + size < 2 ^ 31)
    (hle : k ≤ max 1 (pageCount (UserArticlesRepository.findByUsername repo name).length size)) :
    (∀ link ∈ (pageAt repo name size k).links, follow repo name link ≠ none) ↔
      UserArticlesRepository.findByUsername repo name ≠ [] := by
  have hmul := mul_lt_of_le_pageCount hsize hn hle
  have hksize := Nat.le_mul_of_pos_right k hsize
  obtain ⟨hfirst, hprevious, hnext, hlast⟩ := pageAt_links hk hsize hmul hn
  have hcount := pageCount_le (UserArticlesRepository.findByUsername repo name).length size
  -- page 0 is the only number that is refused
  have hfollow : ∀ j : Nat, j < 2 ^ 31 →
      (follow repo name (pageLink (lit "/list") j (Int32.ofNat size)) ≠ none ↔ j ≠ 0) := by
    intro j hj
    rw [follow_pageLink hsize (by omega) hj]
    split <;> simp_all
  have hstep : (if k * size < (UserArticlesRepository.findByUsername repo name).length then k + 1
      else k) < 2 ^ 31 := by
    split <;> omega
  have hstep' : (if k * size < (UserArticlesRepository.findByUsername repo name).length then k + 1
      else k) ≠ 0 := by
    split <;> omega
  have hempty : pageCount (UserArticlesRepository.findByUsername repo name).length size ≠ 0 ↔
      UserArticlesRepository.findByUsername repo name ≠ [] := by
    rw [← Nat.pos_iff_ne_zero, ← mul_lt_iff_lt_pageCount hsize, Nat.zero_mul, List.length_pos_iff]
  simp only [ListPage.links, hfirst, hprevious, hnext, hlast, List.forall_mem_cons,
    List.not_mem_nil, false_imp_iff, implies_true, and_true]
  -- only the link to the last page can have this number
  rw [hfollow _ (by omega), hfollow _ hstep, hfollow _ (by omega), hempty]
  refine ⟨fun h => h.2.2.2, fun h => ⟨?_, by omega, hstep', h⟩⟩
  exact (hfollow 1 (by decide)).mpr (by decide)

end

/-- **What the links are for**: from the first page on, the links to the next page show each
article once and in order, on as many pages as are needed, and all links on the way work. -/
def PagesThrough (repo : List UserArticle) (name : JString) (size : Nat) : Prop :=
  ∃ pages, Walk repo name (pageLink (lit "/list") 1 (Int32.ofNat size)) pages ∧
    pages.length =
      max 1 (pageCount (UserArticlesRepository.findByUsername repo name).length size) ∧
    pages.flatMap ListPage.articles = UserArticlesRepository.findByUsername repo name ∧
    ∀ p ∈ pages, ∀ link ∈ p.links, follow repo name link ≠ none

section

variable {repo : List UserArticle} {name : JString} {size : Nat}

/-- There is a second page if and only if not all articles fit on the first. -/
theorem one_lt_pageCount_iff {n : Nat} (hsize : 1 ≤ size) : 1 < pageCount n size ↔ size < n := by
  rw [← mul_lt_iff_lt_pageCount hsize, Nat.one_mul]

/-- The pages of the whole walk. -/
theorem walk_all (hsize : 1 ≤ size)
    (hn : (UserArticlesRepository.findByUsername repo name).length + size < 2 ^ 31) :
    ∃ d, 1 + d = max 1 (pageCount (UserArticlesRepository.findByUsername repo name).length size) ∧
      Walk repo name (pageLink (lit "/list") 1 (Int32.ofNat size))
        ((List.range' 1 (d + 1)).map (pageAt repo name size)) := by
  obtain ⟨d, hd⟩ := Nat.exists_eq_add_of_le (Nat.le_max_left 1
    (pageCount (UserArticlesRepository.findByUsername repo name).length size))
  exact ⟨d, hd.symm, walk_from hsize hn (Nat.le_refl 1) hd.symm⟩

/-- All pages together, each of which shows all articles. -/
theorem length_flatMap_pageAt (repo : List UserArticle) (name : JString) (size d : Nat) :
    (((List.range' 1 (d + 1)).map (pageAt repo name size)).flatMap ListPage.articles).length =
      (d + 1) * (UserArticlesRepository.findByUsername repo name).length := by
  rw [List.length_flatMap, List.map_map]
  -- the service does not cut the list
  have hconst : (fun p : ListPage => p.articles.length) ∘ pageAt repo name size =
      fun _ => (UserArticlesRepository.findByUsername repo name).length := rfl
  rw [hconst, List.map_const', List.length_range', List.sum_replicate]
  exact Nat.nsmul_eq_mul _ _

theorem PagesThrough.fits (h : PagesThrough repo name size) (hsize : 1 ≤ size)
    (hn : (UserArticlesRepository.findByUsername repo name).length + size < 2 ^ 31) :
    1 ≤ (UserArticlesRepository.findByUsername repo name).length ∧
      (UserArticlesRepository.findByUsername repo name).length ≤ size := by
  obtain ⟨pages, hpages, -, hall, hlinks⟩ := h
  obtain ⟨d, hd, hwalk⟩ := walk_all hsize hn
  -- the walk is the one through all pages
  obtain rfl := hpages.unique hwalk
  have hfirst : pageAt repo name size 1 ∈ (List.range' 1 (d + 1)).map (pageAt repo name size) :=
    List.mem_map_of_mem (by simp)
  have hpos : 1 ≤ (UserArticlesRepository.findByUsername repo name).length :=
    List.length_pos_iff.mpr
      ((links_accepted_iff (Nat.le_refl 1) hsize hn (Nat.le_max_left _ _)).mp (hlinks _ hfirst))
  -- the articles are shown as often as there are pages
  have hone : d + 1 = 1 := by
    have hlength := length_flatMap_pageAt repo name size d
    rw [hall] at hlength
    exact Nat.eq_of_mul_eq_mul_right hpos (by rw [← hlength, Nat.one_mul])
  refine ⟨hpos, Nat.le_of_not_lt fun hlt => ?_⟩
  have hsecond := (one_lt_pageCount_iff hsize).mpr hlt
  omega

theorem pagesThrough_of_fits (hsize : 1 ≤ size)
    (hn : (UserArticlesRepository.findByUsername repo name).length + size < 2 ^ 31)
    (hpos : 1 ≤ (UserArticlesRepository.findByUsername repo name).length)
    (hle : (UserArticlesRepository.findByUsername repo name).length ≤ size) :
    PagesThrough repo name size := by
  obtain ⟨d, hd, hwalk⟩ := walk_all hsize hn
  have hsecond := mt (one_lt_pageCount_iff hsize).mp (Nat.not_lt.mpr hle)
  -- there is one page only
  obtain rfl : d = 0 := by omega
  refine ⟨_, hwalk, hd, List.append_nil _, fun p hp => ?_⟩
  obtain rfl : p = pageAt repo name size 1 := by simpa using hp
  exact (links_accepted_iff (Nat.le_refl 1) hsize hn (Nat.le_max_left _ _)).mpr
    (List.length_pos_iff.mp hpos)

end

/-- **When paging works.** For every list of articles of a user and every page size, as far
as they are numbers of 32 bits: the walk along the links to the next page ends after
the expected number of pages, but it shows each article exactly once, with links that
all work, if and only if there is an article and all of them fit on one page. -/
theorem pagesThrough_iff {repo : List UserArticle} {name : JString} {size : Nat} (hsize : 1 ≤ size)
    (hn : (UserArticlesRepository.findByUsername repo name).length + size < 2 ^ 31) :
    PagesThrough repo name size ↔
      1 ≤ (UserArticlesRepository.findByUsername repo name).length ∧
        (UserArticlesRepository.findByUsername repo name).length ≤ size :=
  ⟨fun h => h.fits hsize hn, fun h => pagesThrough_of_fits hsize hn h.1 h.2⟩

/-- An article of the user `u`. -/
def someArticle (id : String) : UserArticle :=
  ⟨lit id, lit "a", lit "u", none, lit "noread", lit "k"⟩

/-- Two articles and pages of twenty. -/
theorem pagesThrough_two : PagesThrough [someArticle "1", someArticle "2"] (lit "u") 20 :=
  (pagesThrough_iff (by decide) (by decide)).mpr (by decide)

/-- **Two articles and pages of one.** Both pages show both articles. Without articles,
the link to the last page is refused. -/
theorem paging_fails :
    (follow [someArticle "1", someArticle "2"] (lit "u") (lit "/list?page=1&pageSize=1")).map
        ListPage.articles = some [someArticle "1", someArticle "2"] ∧
      (follow [someArticle "1", someArticle "2"] (lit "u") (lit "/list?page=1&pageSize=1")).map
        (fun p => p.pageInfo.nextPage) = some (lit "/list?page=2&pageSize=1") ∧
      (follow [someArticle "1", someArticle "2"] (lit "u") (lit "/list?page=2&pageSize=1")).map
        ListPage.articles = some [someArticle "1", someArticle "2"] ∧
      ¬ PagesThrough [someArticle "1", someArticle "2"] (lit "u") 1 ∧
      (follow [] (lit "u") (lit "/list?page=1&pageSize=20")).map (fun p => p.pageInfo.lastPage) =
        some (lit "/list?page=0&pageSize=20") ∧
      follow [] (lit "u") (lit "/list?page=0&pageSize=20") = none ∧
      ¬ PagesThrough [] (lit "u") 20 := by
  refine ⟨by decide +kernel, by decide +kernel, by decide +kernel, ?_, by decide +kernel,
    by decide +kernel, ?_⟩
  · intro h
    exact absurd (h.fits (by decide) (by decide)).2 (by decide)
  · intro h
    exact absurd (h.fits (by decide) (by decide)).1 (by decide)

end SpringReader
