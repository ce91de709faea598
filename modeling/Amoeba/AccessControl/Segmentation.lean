import Amoeba.Nginx.RequestBody
import Amoeba.AccessControl.Extraction

/-!
# The POST decision and network segmentation

The handler calls `ngx_http_read_client_request_body` and goes on with the
first buffer of the body, whether or not the body has arrived. What it sees is
a `View`, and the view depends on how the body was delivered: a body that
arrives in pieces is judged by its first piece, by a later one, or by a file
buffer that has no memory at all.

`same_decision_iff` says that two deliveries lead to the same decisions and the
same extracted parameters, for all contents of the body, exactly when they
leave the same view, apart from views too short to hold a parameter name.

The buffer is followed by a NUL here; what bytes behind the buffer do is the
subject of `Extraction`.
-/

namespace AccessControl

open CString Nginx

section

variable (r : Request) (B : List UInt8)

/-- The buffer of the body stands behind everything that was there. -/
theorem Request.length_le_behind (off len : Nat) :
    r.mem.length ≤ (r.mem ++ slice B off (off + len)).length := by
  rw [List.length_append]
  exact Nat.le_add_right _ _

theorem Request.length_behind_lt (h : r.mem.length + B.length < 2 ^ 63) (off len : Nat) :
    (r.mem ++ slice B off (off + len)).length < 2 ^ 63 := by
  have hslice := length_slice_le B off (off + len)
  rw [List.length_append]
  omega

theorem Request.buffer_behind_le (off len : Nat) : ∀ pos last,
    Body.buffer r.mem.length (r.mem.length + (slice B off (off + len)).length) =
      .buffer pos last → pos ≤ last ∧ last ≤ (r.mem ++ slice B off (off + len)).length := by
  rintro pos last ⟨⟩
  rw [List.length_append]
  exact ⟨Nat.le_add_right _ _, Nat.le_refl _⟩

end

/-- The request as the handler finds it when its body `B` has been delivered
with this view: the first buffer stands behind the rest of the request, and the memory
ends with it, so that a NUL is read behind it. -/
def Request.deliver (r : Request) (B : List UInt8) (h : r.mem.length + B.length < 2 ^ 63) :
    View → Request
  -- the reader answers `400` itself
  | .refused => { r with body := .special 400, body_le := nofun }
  | .absent => { r with body := .empty, body_le := nofun }
  | .file => { r with body := .file, body_le := nofun }
  | .chunk off len =>
    { r with
      -- a block of its own behind everything that was there
      mem := r.mem ++ slice B off (off + len)
      body := .buffer r.mem.length (r.mem.length + (slice B off (off + len)).length)
      mem_lt := r.length_behind_lt B h off len
      uriEnd_le := r.uriEnd_le.trans (r.length_le_behind B off len)
      uriData_le := r.uriData_le.trans (r.length_le_behind B off len)
      uriLen_le := r.uriLen_le.trans (r.length_le_behind B off len)
      body_le := r.buffer_behind_le B off len }

/-- The decision of the handler, and the values it has extracted. -/
def decision (A : Arith) (statusCode : Nat) (readEventOk : Bool) (slots : List Slot) (r : Request) :
    Outcome × List (List UInt8) :=
  let h := handler A statusCode readEventOk r slots
  (h.outcome, h.stores.map r.bytes)

/-- The two views lead to the same decision on every POST request with a body
of `n` bytes, in every state of every list of zones. -/
def SameDecision (n : Nat) (v₁ v₂ : View) : Prop :=
  ∀ (A : Arith) (statusCode : Nat) (readEventOk : Bool) (slots : List Slot) (r : Request)
    (B : List UInt8) (h : r.mem.length + B.length < 2 ^ 63), r.method = .post → B.length = n →
    decision A statusCode readEventOk slots (r.deliver B h v₁) =
      decision A statusCode readEventOk slots (r.deliver B h v₂)

/-- No `sid` name fits into the view. -/
def Blind : View → Prop
  | .refused => True
  | .absent => True
  | .file => False
  | .chunk _ len => len < 4

instance : DecidablePred Blind := fun v =>
  match v with
  | .refused => isTrue trivial
  | .absent => isTrue trivial
  | .file => isFalse id
  | .chunk _ len => inferInstanceAs (Decidable (len < 4))

/-- The views are the same, or no `sid` name fits into either. -/
def SameView (v₁ v₂ : View) : Prop := v₁ = v₂ ∨ (Blind v₁ ∧ Blind v₂)

instance : DecidableRel SameView := fun _ _ => inferInstanceAs (Decidable (_ ∨ _))

/-! ### What the handler extracts from one view -/

section

variable {r : Request} {B : List UInt8} {h : r.mem.length + B.length < 2 ^ 63}

theorem deliver_window (off len : Nat) (hpost : r.method = .post) (h2 : 1 < r.uriLen) :
    (r.deliver B h (.chunk off len)).window =
      some (postUri (r.deliver B h (.chunk off len)), r.mem.length,
        r.mem.length + (slice B off (off + len)).length) := by
  exact window_of_buffer hpost rfl h2

/-- The first match of a name in the buffer. -/
theorem matchEnd_deliver (off len : Nat) (name : List UInt8) :
    matchEnd name (r.deliver B h (.chunk off len)).mem r.mem.length =
      (ngxStrcasestrn (slice B off (off + len)) name (name.length - 1)).map
        (r.mem.length + · + name.length) := by
  simp only [matchEnd, Request.deliver, List.drop_left]

/-- **A view without the `sid` name** is answered with `400`. -/
theorem check_of_no_sid {t : Table} {off len : Nat} (hpost : r.method = .post)
    (hsid : ngxStrcasestrn (slice B off (off + len)) sidName 3 = none) :
    check t (r.deliver B h (.chunk off len)) = ⟨none, none, .status 400⟩ := by
  rcases le_or_gt r.uriLen 1 with h1 | h2
  · -- the root path is refused with `400` as well
    exact if_pos h1
  · have hend : matchEnd sidName (r.deliver B h (.chunk off len)).mem r.mem.length = none := by
      rw [matchEnd_deliver, show sidName.length - 1 = 3 from rfl, hsid, Option.map_none]
    have hnone := sidParam_eq (r.deliver B h (.chunk off len)).mem r.mem.length
      (r.mem.length + (slice B off (off + len)).length)
    rw [show cutParam sidName 3 4 0 _ _ _ = none from
      (cutParam_eq_none sidName 0).mpr hend] at hnone
    rw [check_of_window (deliver_window off len hpost h2), checkWindow, hnone]

/-- **A view with the `sid` name**: a zone without keys stores the value, here the
rest of the view, and answers with `400`. -/
theorem check_of_sid {off len k : Nat} (hpost : r.method = .post) (h2 : 1 < r.uriLen)
    (hsid : ngxStrcasestrn (slice B off (off + len)) sidName 3 = some k)
    (hamp : amp ∉ slice B off (off + len)) :
    ∃ s, check ⟨[], [], []⟩ (r.deliver B h (.chunk off len)) = ⟨some s, none, .status 400⟩ ∧
      (r.deliver B h (.chunk off len)).bytes s = (slice B off (off + len)).drop (k + 4) := by
  have hend := matchEnd_deliver (h := h) off len sidName
  rw [show sidName.length - 1 = 3 from rfl, hsid, Option.map_some,
    show sidName.length = 4 from rfl] at hend
  have hmemlt := (r.deliver B h (.chunk off len)).mem_lt
  have hw := deliver_window (h := h) off len hpost h2
  have hlast : r.mem.length + (slice B off (off + len)).length =
      (r.deliver B h (.chunk off len)).mem.length := by
    simp only [Request.deliver, List.length_append]
  -- behind the name stands the rest of the view, and then the memory ends
  have hmem : (r.deliver B h (.chunk off len)).mem.drop (r.mem.length + (k + 4)) =
      (slice B off (off + len)).drop (k + 4) := by
    simp only [Request.deliver]
    rw [← List.drop_drop, List.drop_left]
  have hle := matchEnd_le paramName_sid hend
  obtain ⟨s, hs, hdata⟩ := exists_sidParam hmemlt hlast.le hend
  obtain ⟨hval, -⟩ := sidParam_value hmemlt hlast.le hs (by omega)
  refine ⟨s, ?_, ?_⟩
  · rw [check_of_window hw]
    simp [checkWindow, hs, urisidKnown]
  · rw [Request.bytes, hval, slice, hdata, show r.mem.length + k + 4 = r.mem.length + (k + 4) by omega,
      hmem, List.take_of_length_le (by rw [List.length_drop]; omega), List.takeWhile_eq_self_iff]
    -- without a `'&'` the value is all of it
    exact fun c hc => decide_eq_true fun hca => hamp (hca ▸ List.mem_of_mem_drop hc)

/-- A view of less than four bytes does not contain the `sid` name. -/
theorem ngxStrcasestrn_short {body : List UInt8} (h : body.length < 4) :
    ngxStrcasestrn body sidName 3 = none := by
  refine (ngxStrcasestrn_eq_none (p := sidName.tail) (by decide)).mpr fun k hk => ?_
  have hle := hk.length_le
  rw [List.length_drop] at hle
  simp only [sidName, List.tail_cons, List.length_cons, List.length_nil] at hle
  omega

/-- **A blind view is answered with `400`**, and nothing is extracted. -/
theorem check_of_blind {t : Table} {v : View} (hpost : r.method = .post) (hv : Blind v) :
    check t (r.deliver B h v) = ⟨none, none, .status 400⟩ := by
  cases v with
  | refused => simp [check, Request.deliver, hpost]
  | absent => simp [check, Request.deliver, hpost]
  | file => exact hv.elim
  | chunk off len =>
    refine check_of_no_sid hpost (ngxStrcasestrn_short ?_)
    rw [Blind] at hv
    rw [slice, List.length_take]
    omega

/-- A call whose checks end with a status in its first zone. -/
theorem decision_of_status {A : Arith} {statusCode : Nat} {readEventOk : Bool} {r : Request}
    {s : Slot} {rest : List Slot} {c : Checked} {code : Nat} (hset : r.accessControlSet = false)
    (hc : check s.limit.table r = c) (hcode : c.verdict = .status code) :
    decision A statusCode readEventOk (s :: rest) r = (.status code, c.stores.map r.bytes) := by
  subst hc
  unfold decision handler
  rw [zoneLoop]
  simp [hset, hcode]

end

/-- Blind views lead to the same decision. -/
theorem SameView.sameDecision {n : Nat} {v₁ v₂ : View} (h : SameView v₁ v₂) :
    SameDecision n v₁ v₂ := by
  rcases h with rfl | ⟨h₁, h₂⟩
  · exact fun _ _ _ _ _ _ _ _ _ => rfl
  intro A statusCode readEventOk slots r B h hpost _
  have hset : ∀ v, (r.deliver B h v).accessControlSet = r.accessControlSet := by
    rintro (_ | _ | _ | _) <;> rfl
  -- a blind view hides the body, so the outcome depends on the request and the zones only
  have hdecision : ∀ v, Blind v → decision A statusCode readEventOk slots (r.deliver B h v) =
      (if r.accessControlSet ∨ slots = [] then .declined else .status 400, []) := by
    intro v hv
    cases hs : r.accessControlSet with
    | true => simp [decision, handler, hset, hs]
    | false =>
      cases slots with
      | nil => simp [decision, handler, hset, hs, zoneLoop]
      | cons s rest =>
        rw [decision_of_status ((hset v).trans hs) (check_of_blind hpost hv) rfl]
        simp [Checked.stores]
  rw [hdecision v₁ h₁, hdecision v₂ h₂]

/-! ### Telling two views apart -/

/-- A body of `n` bytes with the `sid` name at `p`. -/
def probe (n p : Nat) : List UInt8 :=
  List.replicate p 0x78 ++ sidName ++ List.replicate (n - (p + 4)) 0x78

theorem length_probe {n p : Nat} (h : p + 4 ≤ n) : (probe n p).length = n := by
  simp [probe, sidName]
  omega

theorem amp_notMem_probe (n p : Nat) : amp ∉ probe n p := by
  simp [probe, sidName, amp]

theorem zero_notMem_probe (n p : Nat) : 0 ∉ probe n p := by
  simp [probe, sidName]

/-- The name stands in the probe at `p` and nowhere else. -/
theorem ciMatch_probe {n p k : Nat} : CiMatch sidName ((probe n p).drop k) ↔ k = p := by
  constructor
  · intro h
    have hk : k < (probe n p).length := by
      have := h.length_le
      rw [List.length_drop] at this
      simp only [sidName, List.length_cons, List.length_nil] at this
      omega
    rw [List.drop_eq_getElem_cons hk, sidName, ciMatch_cons] at h
    by_contra hne
    -- away from `p` the bytes are `x`, or bytes of the name other than its first
    have hbyte : (probe n p)[k] ≠ 0x73 ∧ (probe n p)[k] ≠ 0x53 := by
      simp only [probe, List.append_assoc]
      rcases lt_or_ge k p with hlt | hge
      · rw [List.getElem_append_left (by simpa using hlt), List.getElem_replicate]
        decide
      · rw [List.getElem_append_right (by simpa using hge)]
        simp only [List.length_replicate]
        rcases lt_or_ge (k - p) 4 with h4 | h4
        · rw [List.getElem_append_left (by simpa [sidName] using h4)]
          obtain ⟨j, hj⟩ : ∃ j, k - p = j + 1 := ⟨k - p - 1, by omega⟩
          have hj3 : j < 3 := by omega
          have hname : ∀ j (h : j < 3), (sidName.tail.get ⟨j, h⟩) ≠ 0x73 ∧
              (sidName.tail.get ⟨j, h⟩) ≠ 0x53 := by decide
          simp only [hj, sidName, List.getElem_cons_succ]
          exact hname j hj3
        · rw [List.getElem_append_right (by simpa [sidName] using h4), List.getElem_replicate]
          decide
    revert h hbyte
    generalize (probe n p)[k] = c
    rintro ⟨h, -⟩ hbyte
    revert c
    decide +kernel
  · rintro rfl
    simp only [probe, List.append_assoc]
    rw [show List.drop k (List.replicate k (0x78 : UInt8) ++ (sidName ++ _)) = _ from
      List.drop_left' (by simp)]
    exact ciMatch_append _ _

/-- What a view of the probe shows of the name: where it begins, if it stands
in the view as a whole. -/
theorem ngxStrcasestrn_probe {n p off len : Nat} (hp : p + 4 ≤ n) (hle : off + len ≤ n) :
    ngxStrcasestrn (slice (probe n p) off (off + len)) sidName 3 =
      if off ≤ p ∧ p + 4 ≤ off + len then some (p - off) else none := by
  have hlen := length_probe hp
  -- a match in the view is a match in the probe that the view contains
  have hmatch : ∀ k, CiMatch sidName ((slice (probe n p) off (off + len)).drop k) ↔
      off + k = p ∧ p + 4 ≤ off + len := by
    intro k
    have hslice : (slice (probe n p) off (off + len)).drop k =
        ((probe n p).drop (off + k)).take (len - k) := by
      rw [slice, Nat.add_sub_cancel_left, List.drop_take, List.drop_drop]
    rw [hslice]
    constructor
    · intro h
      have hpre : CiMatch sidName ((probe n p).drop (off + k)) := by
        refine List.IsPrefix.trans h ?_
        rw [List.map_take]
        exact List.take_prefix _ _
      have hl := h.length_le
      rw [List.length_take, List.length_drop] at hl
      simp only [sidName, List.length_cons, List.length_nil] at hl
      exact ⟨ciMatch_probe.mp hpre, by have := ciMatch_probe.mp hpre; omega⟩
    · rintro ⟨rfl, h4⟩
      have hpre : CiMatch sidName ((probe n (off + k)).drop (off + k)) := ciMatch_probe.mpr rfl
      unfold CiMatch at hpre ⊢
      rw [List.map_take]
      refine List.prefix_take_iff.mpr ⟨hpre, ?_⟩
      simp only [sidName, List.map_cons, List.map_nil, List.length_cons, List.length_nil]
      omega
  split
  next h =>
    refine (ngxStrcasestrn_eq_some (p := sidName.tail) (by decide)).mpr
      ⟨(hmatch _).mpr ⟨by omega, h.2⟩, fun j hj hm => ?_, fun h0 => ?_⟩
    · have := ((hmatch j).mp hm).1
      omega
    · exact zero_notMem_probe n p
        (List.mem_of_mem_drop (List.mem_of_mem_take (List.mem_of_mem_take h0)))
  next h =>
    refine (ngxStrcasestrn_eq_none (p := sidName.tail) (by decide)).mpr fun k hk => ?_
    -- cut off at either end, the name is not found at all
    obtain ⟨hk, h4⟩ := (hmatch k).mp hk
    exact absurd ⟨by omega, h4⟩ h

/-- A POST request for `/a`. -/
def shortPost : Request where
  accessControlSet := false
  method := .post
  mem := ascii "/a"
  uriData := 0
  uriLen := 2
  uriStart := 0
  uriEnd := 2
  body := .absent
  spill := []
  mem_lt := by decide
  uri_le := by decide
  uriEnd_le := by decide
  uriData_le := by decide
  uriLen_le := by decide
  body_le := by simp

/-- The lengths of the values extracted from a view of the probe. -/
def shown (p : Nat) : View → List Nat
  | .chunk off len => if off ≤ p ∧ p + 4 ≤ off + len then [off + len - (p + 4)] else []
  | _ => []

/-- **What a view shows of the probe** to a zone without keys: a memory view that
contains the name yields the bytes behind it, and a file buffer is a fault. -/
theorem decision_probe {n p : Nat} (hp : p + 4 ≤ n) {v : View}
    (hv : ∀ off len, v = .chunk off len → off + len ≤ n)
    {h : shortPost.mem.length + (probe n p).length < 2 ^ 63} :
    (decision .exact 503 true [freshSlot ⟨[], [], []⟩ 0]
      (shortPost.deliver (probe n p) h v)).2.map List.length = shown p v := by
  cases v with
  | refused => rfl
  | absent => rfl
  | file => rfl
  | chunk off len =>
    have hle := hv off len rfl
    have hfound := ngxStrcasestrn_probe hp hle
    rw [shown]
    split at hfound
    next hin =>
      rw [if_pos hin]
      -- the value runs to the end of the view, which tells where the view ends
      have hamp : amp ∉ slice (probe n p) off (off + len) := fun hmem =>
        amp_notMem_probe n p (List.mem_of_mem_drop (List.mem_of_mem_take hmem))
      have hlen : (slice (probe n p) off (off + len)).length = len := by
        rw [length_slice (by rw [length_probe hp]; exact hle)]
        omega
      obtain ⟨s, hcheck, hbytes⟩ := check_of_sid (h := h) rfl (by decide) hfound hamp
      rw [decision_of_status (s := freshSlot ⟨[], [], []⟩ 0) rfl hcheck rfl]
      simp only [Checked.stores, Option.toList_some, Option.toList_none, List.append_nil,
        List.map_cons, List.map_nil]
      rw [hbytes, List.length_drop, hlen]
      congr 1
      omega
    next hout =>
      rw [decision_of_status (s := freshSlot ⟨[], [], []⟩ 0) rfl (check_of_no_sid rfl hfound) rfl,
        if_neg hout]
      rfl

/-- **A file buffer is a fault**, unlike the other views. -/
theorem outcome_fault_iff {B : List UInt8} {h : shortPost.mem.length + B.length < 2 ^ 63} {v : View} :
    (decision .exact 503 true [freshSlot ⟨[], [], []⟩ 0] (shortPost.deliver B h v)).1 = .fault ↔
      v = .file := by
  refine ⟨fun hfault => ?_, by rintro rfl; rfl⟩
  by_contra hfile
  -- all other views get as far as the path check, and the zone knows no path
  have hverdict : (check ⟨[], [], []⟩ (shortPost.deliver B h v)).verdict = .status 400 := by
    cases v with
    | refused => rfl
    | absent => rfl
    | file => exact absurd rfl hfile
    | chunk off len =>
      have hw : (shortPost.deliver B h (.chunk off len)).window = _ :=
        deliver_window off len rfl (by decide)
      rw [check_of_window hw, checkWindow]
      split
      · rfl
      · simp [urisidKnown]
  have hset : (shortPost.deliver B h v).accessControlSet = false := by
    cases v <;> rfl
  rw [decision_of_status (s := freshSlot ⟨[], [], []⟩ 0) hset rfl hverdict] at hfault
  exact absurd hfault (by simp)

/-- A view long enough for the name is known by what it shows. -/
theorem eq_of_shown {n off len : Nat} (h4 : 4 ≤ len) (hle : off + len ≤ n) {v : View}
    (hv : ∀ off len, v = .chunk off len → off + len ≤ n)
    (h : ∀ p, p + 4 ≤ n → shown p (.chunk off len) = shown p v) : v = .chunk off len := by
  -- the name stands first at the start of the one view, then at that of the other
  have hfirst := h off (by omega)
  rw [shown, if_pos (by omega)] at hfirst
  cases v with
  | refused => exact absurd hfirst (by simp [shown])
  | absent => exact absurd hfirst (by simp [shown])
  | file => exact absurd hfirst (by simp [shown])
  | chunk off' len' =>
    have hle' := hv off' len' rfl
    rw [shown] at hfirst
    split at hfirst
    next hin =>
      -- both views end at the same byte
      have hend : off + len - (off + 4) = off' + len' - (off + 4) := by simpa using hfirst
      -- and neither begins before the other
      have hsecond := h off' (by omega)
      rw [shown, shown, if_pos (show off' ≤ off' ∧ off' + 4 ≤ off' + len' by omega)] at hsecond
      split at hsecond
      · rw [View.chunk.injEq]
        omega
      · exact absurd hsecond (by simp)
    next => exact absurd hfirst (by simp)

/-- A view that is neither blind nor a file holds the name. -/
theorem exists_chunk_of_not_blind {v : View} (hb : ¬ Blind v) (hfile : v ≠ .file) :
    ∃ off len, v = .chunk off len ∧ 4 ≤ len := by
  cases v with
  | refused => exact absurd trivial hb
  | absent => exact absurd trivial hb
  | file => exact absurd rfl hfile
  | chunk off len => exact ⟨off, len, rfl, not_lt.mp hb⟩

/-- Two views that show the probe alike, wherever the name stands, are the same
or blind. -/
theorem sameView_of_shown {n : Nat} {v₁ v₂ : View}
    (h₁ : ∀ off len, v₁ = .chunk off len → off + len ≤ n)
    (h₂ : ∀ off len, v₂ = .chunk off len → off + len ≤ n) (hfile : v₁ = .file ↔ v₂ = .file)
    (h : ∀ p, p + 4 ≤ n → shown p v₁ = shown p v₂) : SameView v₁ v₂ := by
  by_cases hf : v₁ = .file
  · exact .inl (hf.trans (hfile.mp hf).symm)
  by_cases hb₁ : Blind v₁
  · refine .inr ⟨hb₁, ?_⟩
    by_contra hb₂
    obtain ⟨off, len, rfl, h4⟩ := exists_chunk_of_not_blind hb₂ (fun hf' => hf (hfile.mpr hf'))
    obtain rfl := eq_of_shown h4 (h₂ off len rfl) h₁ fun p hp => (h p hp).symm
    exact hb₂ hb₁
  · obtain ⟨off, len, rfl, h4⟩ := exists_chunk_of_not_blind hb₁ hf
    exact .inl (eq_of_shown h4 (h₁ off len rfl) h₂ h).symm

/-- **Segmentation is invisible exactly when it leaves the same view.** For every
configuration, header buffer and length of the body, two deliveries lead to the
same decision and the same extracted values on all requests and bodies, in all
states of the zones, if and only if the first buffers they leave show the same
part of the body, or both are too short for a `sid`. The byte behind each buffer is a
NUL, so no value goes on behind it. -/
theorem same_decision_iff (c : BodyConf) (space n : Nat) (hn : n < 2 ^ 62) (d₁ d₂ : Delivery) :
    SameDecision n (readClientRequestBody c space n d₁) (readClientRequestBody c space n d₂) ↔
      SameView (readClientRequestBody c space n d₁) (readClientRequestBody c space n d₂) := by
  refine ⟨fun h => ?_, SameView.sameDecision⟩
  have hlen : ∀ {B : List UInt8}, B.length = n → shortPost.mem.length + B.length < 2 ^ 63 := by
    intro B hB
    rw [hB, show shortPost.mem.length = 2 from rfl]
    omega
  -- one zone without keys and one request are enough to tell views apart
  have hat := fun (B : List UInt8) (hB : B.length = n) =>
    h .exact 503 true [freshSlot ⟨[], [], []⟩ 0] shortPost B (hlen hB) rfl hB
  refine sameView_of_shown (fun _ _ => readClientRequestBody_le) (fun _ _ => readClientRequestBody_le)
    ?_ fun p hp => ?_
  · rw [← outcome_fault_iff (h := hlen (List.length_replicate (n := n) (a := 0x78))),
      hat _ List.length_replicate, outcome_fault_iff]
  · have hB := length_probe hp
    rw [← decision_probe hp (fun _ _ => readClientRequestBody_le) (h := hlen hB), hat _ hB,
      decision_probe hp (fun _ _ => readClientRequestBody_le)]

/-- A body of eleven bytes that arrives with the headers. -/
def wholeDelivery : Delivery := ⟨11, []⟩

/-- Its first five bytes arrive with the headers, the others later. -/
def splitDelivery : Delivery := ⟨5, [.again]⟩

/-- A body that fits behind the headers and one in two pieces that both arrive
before the call returns are judged alike. -/
theorem same_decision_two_pieces :
    let c : BodyConf := ⟨16384, false, false⟩
    SameDecision 11 (readClientRequestBody c 100 11 wholeDelivery)
      (readClientRequestBody c 100 11 ⟨5, [.data 5 true]⟩) := by
  intro c
  exact (same_decision_iff c 100 11 (by decide) wholeDelivery ⟨5, [.data 5 true]⟩).mpr (by decide)

/-- **A request let through when its body is in one segment** is turned down when
the rest of the body is still on its way: the handler sees `sid=1` and no key. -/
theorem split_body_changes_decision :
    let c : BodyConf := ⟨16384, false, false⟩
    let B := ascii "sid=1&key=k"
    let slots := [freshSlot (initKeypool [⟨ascii "k", ascii "/a", 1, ascii "1"⟩]) 1]
    let judged := fun d => decision (.word 64) 503 true slots
      (shortPost.deliver B (by decide) (readClientRequestBody c 100 11 d))
    judged wholeDelivery = (.declined, [ascii "1", ascii "k"]) ∧
      judged splitDelivery = (.status 401, [ascii "1"]) ∧
      ¬ SameDecision 11 (readClientRequestBody c 100 11 wholeDelivery)
        (readClientRequestBody c 100 11 splitDelivery) := by
  intro c B slots judged
  have hwhole : judged wholeDelivery = (.declined, [ascii "1", ascii "k"]) := by decide +kernel
  have hsplit : judged splitDelivery = (.status 401, [ascii "1"]) := by decide +kernel
  refine ⟨hwhole, hsplit, fun h => ?_⟩
  have hjudged : judged wholeDelivery = judged splitDelivery :=
    h (.word 64) 503 true slots shortPost B (by decide) rfl rfl
  rw [hwhole, hsplit] at hjudged
  exact absurd hjudged (by decide)

end AccessControl
