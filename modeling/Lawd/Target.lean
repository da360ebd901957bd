import Lawd.Query
import Lawd.UriPrint
import Mathlib.Data.List.TakeWhile

/-!
# Request targets

A client prints a path and a query into a request line. The handler that reads the
line is given the same segments and the same elements.
-/
namespace Lawd

open Library Library.Peg

/-- The path with a slash in front of each segment, or a lone slash. -/
def pathText (segs : List (List UInt8)) : List UInt8 :=
  '/'.toUInt8 :: ['/'.toUInt8].intercalate segs

/-- A target in origin form. -/
def originUri (segs : List (List UInt8)) (elems : Option (List QueryElem)) : Uri :=
  ⟨none, none, none, some (pathText segs), elems.map queryText⟩

/-- A request line without its end. -/
def targetLine (method target version : List UInt8) : List UInt8 :=
  method ++ ' '.toUInt8 :: (target ++ ' '.toUInt8 :: version)

/-- The parts of a request line in origin form, each accepted in full by its rule.
A path has no more segments than `law_uri_parse_path` keeps. -/
structure IsOrigin (method : List UInt8) (segs : List (List UInt8))
    (elems : Option (List QueryElem)) (version : List UInt8) : Prop where
  method : parse Htp.token method = some ([], [])
  count : segs.length ≤ 127
  segs : ∀ seg ∈ segs, parse UriPar.segmentNz seg = some ([], [])
  query : ∀ es ∈ elems, parse UriPar.query (queryText es) = some ([], [])
  version : parse Htp.httpVersion version = some ([], [])

/-- The ways of reading a path give the same list of segments. An index below 0
counts from the end. -/
structure ReadsPath (path : UriPath) (segs : List (List UInt8)) : Prop where
  count : path.count = segs.length
  next : uriPathSegs path = some segs
  at_front : ∀ n : ℕ, uriPathAt path n = segs[n]?
  at_back : ∀ n : ℕ, n < 2 ^ 63 → uriPathAt path (-(n + 1)) = segs.reverse[n]?

/-- The handler is given the segments and the elements, and nothing else. -/
structure ReadsTarget (target : Uri) (segs : List (List UInt8))
    (elems : Option (List QueryElem)) : Prop where
  origin : target.scheme = none ∧ target.host = none ∧ target.port = none
  path : ∃ text path, target.path = some text ∧ uriParsePath false text = .ok path ∧
    ReadsPath path segs
  bare : elems = none → target.query = none
  query : ∀ es ∈ elems, ∃ text query, target.query = some text ∧
    uriParseQuery false text = .ok query ∧ Reads query (es.map QueryElem.pair)

variable {segs : List (List UInt8)} {elems : List QueryElem} {w : List UInt8}

/-! ### Paths -/

@[simp] theorem segs_getElem? (segs : List (List UInt8)) (n : ℕ) :
    (segs.map (Node.str .seg))[n]? >>= uriPathSeg = segs[n]? := by
  rw [List.getElem?_map]
  cases segs[n]? with
  | none => rfl
  | some seg => rfl

theorem readsPath_map (hcount : segs.length ≤ 127) :
    ReadsPath ⟨segs.map (.str .seg), segs.length⟩ segs where
  count := rfl
  next := uriPathSegs_map segs _
  at_front n := by
    rw [uriPathAt, if_neg (by omega)]
    exact segs_getElem? segs n
  at_back n hn := by
    have hneg : (-((n : ℤ) + 1)) < 0 := by omega
    rw [uriPathAt, if_pos hneg]
    refine (segs_getElem? segs _).trans ?_
    by_cases hlt : n < segs.length
    · -- The sum of the count and the index is the place from the front.
      have hindex : (((segs.length : ℤ) + -((n : ℤ) + 1)) % 2 ^ 64).toNat =
          segs.length - 1 - n := by omega
      rw [hindex, List.getElem?_reverse hlt]
    · -- The sum is below 0 and wraps around.
      have hindex : segs.length ≤ (((segs.length : ℤ) + -((n : ℤ) + 1)) % 2 ^ 64).toNat := by omega
      rw [List.getElem?_eq_none hindex, List.getElem?_eq_none (by simp; omega)]

namespace UriPar

theorem segment_ne_nil {seg : List UInt8} (h : parse segmentNz seg = some ([], [])) : seg ≠ [] := by
  rintro rfl
  cases h

theorem pathText_cons (seg : List UInt8) (segs : List (List UInt8)) :
    pathText (seg :: segs) = led '/'.toUInt8 (seg :: segs) := by
  rw [pathText, intercalate_cons, led_cons]

theorem derives_slashes (hsegs : ∀ seg ∈ segs, parse segmentNz seg = some ([], []))
    (hcount : segs.length ≤ 127) :
    Derives (.rep 0 127 (.seq fslash segment)) (led '/'.toUInt8 segs) [] := by
  have hps : ∀ p ∈ segs.map fun seg => ('/'.toUInt8 :: seg, ([] : List Node)),
      Derives (.seq fslash segment) p.1 p.2 := by
    intro p hp
    obtain ⟨seg, hseg, rfl⟩ := List.mem_map.mp hp
    obtain ⟨vs, hd⟩ := generates_segment (derives_of_full (hsegs seg hseg))
    have hvs := hd.silent rfl
    subst hvs
    exact .seq (derives_ch_self '/') hd
  have hd := derives_of_copies _ (Nat.zero_le _) ((List.length_map _).trans_le hcount) hps
  have htext : (segs.map fun seg => ('/'.toUInt8 :: seg, ([] : List Node))).flatMap (·.1) =
      led '/'.toUInt8 segs := by
    rw [led, List.flatMap_map]
  have hnodes :
      (segs.map fun seg => ('/'.toUInt8 :: seg, ([] : List Node))).flatMap (·.2) = [] := by
    rw [List.flatMap_map]
    exact List.flatMap_eq_nil_iff.mpr fun _ _ => rfl
  rwa [htext, hnodes] at hd

theorem derives_pathText (hsegs : ∀ seg ∈ segs, parse segmentNz seg = some ([], []))
    (hcount : segs.length ≤ 127) : Derives pathAbsolute (pathText segs) [] := by
  cases segs with
  | nil => exact .seq (derives_ch_self '/') .none
  | cons seg segs =>
    have hfirst := derives_of_full (hsegs seg List.mem_cons_self)
    have hmore := derives_slashes (fun s hs => hsegs s (List.mem_cons_of_mem _ hs))
      (Nat.le_of_succ_le hcount)
    have hone : Derives (.rep 0 1 (.seq segmentNz (.rep 0 127 (.seq fslash segment))))
        ((seg ++ led '/'.toUInt8 segs) ++ []) (([] ++ []) ++ []) :=
      .copy (.seq hfirst hmore) .none
    rw [List.append_nil] at hone
    rw [pathText, intercalate_cons]
    exact .seq (derives_ch_self '/') hone

end UriPar

theorem uriParsePath_pathText (hsegs : ∀ seg ∈ segs, parse UriPar.segmentNz seg = some ([], []))
    (hcount : segs.length ≤ 127) :
    ∃ path, uriParsePath false (pathText segs) = .ok path ∧ ReadsPath path segs := by
  have hempty := readsPath_map hcount
  cases segs with
  | nil => exact ⟨_, rfl, hempty⟩
  | cons seg segs =>
    have hne : ∀ s ∈ seg :: segs, isSeg s = true := fun s hs =>
      isSeg_true.mpr (UriPar.segment_ne_nil (hsegs s hs))
    have hbehind : behindSlashes (seg :: segs) = seg :: segs := by
      cases seg with
      | nil => cases hne [] List.mem_cons_self
      | cons a u => rfl
    have hall : (behindSlashes (seg :: segs)).takeWhile isSeg = seg :: segs := by
      rw [hbehind, List.takeWhile_eq_self_iff]
      exact hne
    obtain ⟨rest, hp⟩ := UriPar.parse_pathList
      (fun s hs => UriPar.generates_segment (derives_of_full (hsegs s hs)))
      (by rw [hall]; exact hcount)
    rw [hall] at hp
    refine ⟨_, ?_, hempty⟩
    rw [UriPar.pathText_cons, uriParsePath, langParse_of_parse hp]
    simp [Except.map]

/-! ### Queries -/

/-- A query that is printed is read back. -/
theorem uriParseQuery_reads_queryText
    (hquery : parse UriPar.query (queryText elems) = some ([], [])) :
    ∃ query, uriParseQuery false (queryText elems) = .ok query ∧
      Reads query (elems.map QueryElem.pair) := by
  have hamp := UriPar.count_query (derives_of_full hquery)
  have hlen : elems.length ≤ 128 := by
    cases elems with
    | nil => exact Nat.zero_le _
    | cons e elems =>
      have hled := length_le_count_led '&'.toUInt8 (elems.map QueryElem.text)
      rw [queryText, List.map_cons, intercalate_cons, List.count_append] at hamp
      rw [List.length_map] at hled
      rw [List.length_cons]
      omega
  exact ⟨_, uriParseQuery_queryText hlen, reads_of_isPair (isPair_map elems)⟩

/-! ### Request lines -/

section Target

variable {method version : List UInt8} {elems : Option (List QueryElem)}

theorem derives_capQuery
    (hquery : ∀ es ∈ elems, parse UriPar.query (queryText es) = some ([], [])) :
    Derives UriPar.capQuery ((elems.map queryText).elim [] ('?'.toUInt8 :: ·))
      ((elems.map queryText).elim [] fun text => [.str .query text]) := by
  cases elems with
  | none => exact .none
  | some es =>
    have hd := derives_of_full (hquery es rfl)
    have hone : Derives UriPar.capQuery ((['?'.toUInt8] ++ queryText es) ++ [])
        (([] ++ [.str .query (queryText es)]) ++ []) :=
      .copy (.seq (UriPar.derives_ch_self '?') (.cap hd)) .none
    rwa [List.append_nil, List.append_nil] at hone

/-- In front of a space, a target in origin form is parsed in full. -/
theorem parse_originUri (h : IsOrigin method segs elems version) (w : List UInt8) :
    ∃ parts, parse Htp.requestTarget ((originUri segs elems).printed ++ ' '.toUInt8 :: w) =
        some ([.lst .originForm parts], ' '.toUInt8 :: w) ∧
      uriFromAst parts = some (originUri segs elems) := by
  have hpath := UriPar.derives_pathText h.segs h.count
  have hquery := derives_capQuery h.query
  have hspace : Followed [' '] (' '.toUInt8 :: w) := heads_cons List.mem_cons_self
  have hnext : Followed ['?', ' ']
      ((elems.map queryText).elim [] ('?'.toUInt8 :: ·) ++ ' '.toUInt8 :: w) :=
    hquery.heads_append (UriPar.mem_of_first List.mem_cons_self) fun _ =>
      UriPar.Followed.mono rfl _ hspace
  have hcap : Derives (readTerm .path UriPar.pathAbsolute) (pathText segs)
      [.str .path (pathText segs)] := .cap hpath
  have horigin := parse_seq.mpr ⟨_, _, _, UriPar.exact_pathAbsolute.cap _ _ _ hcap hnext,
    UriPar.exact_capQuery _ _ _ hquery hspace, rfl⟩
  have htext : (originUri segs elems).printed ++ ' '.toUInt8 :: w = pathText segs ++
      ((elems.map queryText).elim [] ('?'.toUInt8 :: ·) ++ ' '.toUInt8 :: w) := by
    simp [originUri, Uri.printed]
  rw [htext]
  refine ⟨_, parse_alt_left (parse_alt_left (parse_cap_some horigin)), ?_⟩
  cases elems with
  | none => rfl
  | some es => rfl

theorem parse_targetLine (h : IsOrigin method segs elems version) :
    ∃ parts, parse requestBody (targetLine method (originUri segs elems).printed version) =
        some ([.str .method method, .lst .originForm parts, .str .version version], []) ∧
      uriFromAst parts = some (originUri segs elems) := by
  obtain ⟨parts, htarget, huri⟩ := parse_originUri h version
  refine ⟨parts, ?_, huri⟩
  exact parse_seq.mpr ⟨_, _, _, parse_seq.mpr ⟨_, _, _, parse_seq.mpr ⟨_, _, _,
    parse_method ⟨_, derives_of_full h.method⟩ _, htarget, rfl⟩, rfl, rfl⟩,
    parse_version h.version, rfl⟩

theorem IsOrigin.clean (h : IsOrigin method segs elems version) :
    0x0D ∉ targetLine method (originUri segs elems).printed version := by
  have hm := (derives_of_full h.method).avoids (b := 0x0D) rfl
  have hv := (derives_of_full h.version).avoids (b := 0x0D) rfl
  have hp := (UriPar.derives_pathText h.segs h.count).avoids (b := 0x0D) rfl
  have hq := (derives_capQuery h.query).avoids (b := 0x0D) rfl
  simp only [targetLine, originUri, Uri.printed, Option.elim_none, Option.getD_none,
    Option.getD_some, List.nil_append, List.mem_append, List.mem_cons, not_or]
  exact ⟨hm, by decide, ⟨hp, hq⟩, by decide, hv⟩

theorem readsTarget_originUri (h : IsOrigin method segs elems version) :
    ReadsTarget (originUri segs elems) segs elems where
  origin := ⟨rfl, rfl, rfl⟩
  path := by
    obtain ⟨path, hpath, hreads⟩ := uriParsePath_pathText h.segs h.count
    exact ⟨_, path, rfl, hpath, hreads⟩
  bare hnone := by rw [hnone]; rfl
  query es hes := by
    obtain ⟨query, hquery, hreads⟩ := uriParseQuery_reads_queryText (h.query es hes)
    refine ⟨queryText es, query, ?_, hquery, hreads⟩
    rw [Option.mem_def.mp hes]
    rfl

/-- A client that prints a target with `law_uri_bprint`, in more room than its text
needs, into a request line is understood: in whatever pieces the line arrives, it is
accepted while the parser's memory lasts, the rest of the stream is left, and the
handler reads the same segments and the same elements. -/
theorem target_reads_back (B B' : ByteBuffer) (c : Htconn B) (base : ℕ)
    (method version extra : List UInt8) (segs : List (List UInt8))
    (elems : Option (List QueryElem)) (b b' : B'.Buf) (h : IsOrigin method segs elems version)
    (hempty : B'.unread b = []) (hroom : (originUri segs elems).printed.length < B'.max b)
    (hprint : uriBprint B' (originUri segs elems) b = (.ok, b'))
    (htell : B.tell c.input = base)
    (hstream : c.stream base =
      targetLine method (B'.unread b') version ++ 0x0D :: 0x0A :: extra)
    (hs : Streams c.security c.socket.recv)
    (hfit : (targetLine method (B'.unread b') version).length + 2 ≤ B.max c.input) :
    ∃ reqline c₁,
      Settles (htsReadReqline base false) readAgain c ((some .ok, some reqline), c₁) ∧
        c₁.stream (B.tell c₁.input) = extra ∧
        reqline.method = method ∧ reqline.version = version ∧
        ReadsTarget reqline.target segs elems := by
  obtain ⟨b₁, hprint₁, htext⟩ := uriBprint_ok hempty hroom
  rw [hprint] at hprint₁
  obtain rfl := (Prod.mk.inj hprint₁).2
  rw [htext] at hstream hfit
  obtain ⟨parts, hbody, huri⟩ := parse_targetLine h
  have hisline : IsLine 0x0D requestBody
      (targetLine method (originUri segs elems).printed version, _) := ⟨h.clean, hbody⟩
  have hparse := parse_requestLine hisline
  have hparsed : parsed Htp.requestLine
      (targetLine method (originUri segs elems).printed version ++ [0x0D, 0x0A]) =
        (some .ok, [.str .method method, .lst .originForm parts, .str .version version]) := by
    rw [parsed, hparse]
  have hresult : reqlineResult (some .ok,
      [.str .method method, .lst .originForm parts, .str .version version]) =
        (some .ok, some ⟨method, originUri segs elems, version⟩) := by
    simp [reqlineResult, reqlineFromAst, huri]
  obtain ⟨c₁, hsettles, -, -, hrest⟩ := read_reqline_text h.clean htell hstream hs hfit
  rw [hparsed] at hsettles hrest
  rw [hresult] at hsettles
  exact ⟨_, c₁, hsettles, (hrest rfl).2, rfl, rfl, readsTarget_originUri h⟩

end Target

/-- `x=1`. -/
def oneElem : QueryElem where
  name := ['x'.toUInt8]
  value := some ['1'.toUInt8]
  name_pos := le_rfl
  name_le := by decide
  name_chars := List.forall_mem_singleton.mpr rfl
  value_le v hv := by cases hv; decide
  value_chars v hv := by cases hv; exact List.forall_mem_singleton.mpr rfl

/-- `GET /a/b?x=1 HTTP/1.1`. -/
def getTarget : List UInt8 :=
  targetLine getReqline.method (twoSegs ++ ['?', 'x', '=', '1'].map Char.toUInt8) http11

theorem isOrigin_get :
    IsOrigin getReqline.method [['a'.toUInt8], ['b'.toUInt8]] (some [oneElem]) http11 where
  method := rfl
  count := by decide
  segs := List.forall_mem_cons.mpr ⟨rfl, List.forall_mem_singleton.mpr rfl⟩
  query es hes := by cases hes; rfl
  version := rfl

theorem target_reads_back_get : ∃ reqline c₁,
    Settles (htsReadReqline 0 false) readAgain (lineConn (getTarget ++ [0x0D, 0x0A]))
      ((some .ok, some reqline), c₁) ∧
      ReadsTarget reqline.target [['a'.toUInt8], ['b'.toUInt8]] (some [oneElem]) := by
  obtain ⟨reqline, c₁, hsettles, -, -, -, hreads⟩ := target_reads_back Ring.buffer Ring.buffer
    (lineConn (getTarget ++ [0x0D, 0x0A])) 0 _ _ [] _ _ (Ring.init 64 (by decide)) _ isOrigin_get
    rfl (by decide) rfl rfl rfl (by decide) (by decide)
  exact ⟨reqline, c₁, hsettles, hreads⟩

end Lawd
