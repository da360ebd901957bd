import Lawd.Library.Pieces
import Lawd.ReadHead
import Lawd.UriLanguage

/-!
# Request lines

Whatever `law_hts_read_reqline` accepts is rebuilt from what it returns, since
every byte of an accepted line is a captured one or a separator that the
captures determine.
-/
namespace Lawd

open Library Library.Peg

/-- The text of a target, from its components only. -/
def Uri.render (uri : Uri) : List UInt8 :=
  uri.scheme.elim [] (· ++ [':'.toUInt8]) ++
    ((if uri.scheme.isSome && uri.host.isSome then ['/'.toUInt8, '/'.toUInt8] else []) ++
      (uri.host.getD [] ++ (uri.port.elim [] (':'.toUInt8 :: ·) ++
        (uri.path.getD [] ++ uri.query.elim [] ('?'.toUInt8 :: ·)))))

/-- The text of a request line. -/
def HtsReqline.render (reqline : HtsReqline) : List UInt8 :=
  reqline.method ++ ' '.toUInt8 :: (reqline.target.render ++
    ' '.toUInt8 :: (reqline.version ++ [0x0D, 0x0A]))

namespace UriPar

variable {t : List UInt8} {vs : List Node}

/-- The uri of captured parts renders as the text they were captured from. -/
def Faithful (g : Rule) : Prop :=
  ∀ t vs, Derives g t vs → ∃ uri, uriFromAst vs = some uri ∧ uri.render = t

theorem faithful_capOriginURI : Faithful capOriginURI := by
  intro t vs hd
  cases hd with
  | seq hpath hquery =>
    cases hpath with
    | cap hpath =>
      obtain ⟨query, rfl, rfl⟩ := opt_part hquery
      cases query with
      | none => exact ⟨_, rfl, rfl⟩
      | some text => exact ⟨_, rfl, rfl⟩

theorem faithful_capAuthority : Faithful capAuthority := by
  intro t vs hd
  cases hd with
  | seq hhost hport =>
    cases hhost with
    | cap hhost =>
      obtain ⟨port, rfl, rfl⟩ := opt_part hport
      cases port with
      | none => exact ⟨_, rfl, by simp [Uri.render]⟩
      | some text => exact ⟨_, rfl, by simp [Uri.render]⟩

/-- What is captured behind the scheme: a host with its path, or a path alone. -/
theorem capHeirpart_parts (hd : Derives capHeirpart t vs) :
    (∃ h hs p ps u us, Derives host h hs ∧
      Derives (.rep 0 1 (.seq colon (readTerm .port port))) p ps ∧ Derives pathAbempty u us ∧
      t = '/'.toUInt8 :: '/'.toUInt8 :: (h ++ (p ++ u)) ∧
      vs = .str .host h :: (ps ++ [.str .path u])) ∨
    (vs = [.str .path t] ∧
      (Generates pathAbsolute t ∨ Generates pathRootless t ∨ Generates pathEmpty t)) := by
  cases hd with
  | left hd =>
    cases hd with
    | left hd =>
      cases hd with
      | left hd => exact .inl (derives_capNetPath hd)
      | right hd =>
        cases hd with
        | cap hd => exact .inr ⟨rfl, .inl ⟨_, hd⟩⟩
    | right hd =>
      cases hd with
      | cap hd => exact .inr ⟨rfl, .inr (.inl ⟨_, hd⟩)⟩
  | right hd =>
    cases hd with
    | cap hd => exact .inr ⟨rfl, .inr (.inr ⟨_, hd⟩)⟩

theorem faithful_capAbsoluteURI : Faithful capAbsoluteURI := by
  intro t vs hd
  obtain ⟨a, as, w, ts, q, qs, -, hhier, hquery, rfl, rfl⟩ := derives_capAbsoluteURI hd
  obtain ⟨query, rfl, rfl⟩ := opt_part hquery
  obtain ⟨h, hs, p, ps, u, us, -, hport, -, rfl, rfl⟩ | ⟨rfl, -⟩ := capHeirpart_parts hhier
  · obtain ⟨port, rfl, rfl⟩ := opt_part hport
    exact ⟨_, uriFromAst_net a h u port query, by simp [Uri.render]⟩
  · exact ⟨_, uriFromAst_path a w query, by simp [Uri.render]⟩

end UriPar

section Captures

variable {t : List UInt8} {vs : List Node}

theorem requestTarget_render (hd : Derives Htp.requestTarget t vs) :
    ∃ form parts uri, vs = [.lst form parts] ∧ uriFromAst parts = some uri ∧ uri.render = t := by
  have hexp : ∀ {form : Tag} {g : Rule}, UriPar.Faithful g → Derives (readExp form g) t vs →
      ∃ form parts uri, vs = [.lst form parts] ∧ uriFromAst parts = some uri ∧
        uri.render = t := by
    intro form g hg hexp
    cases hexp with
    | cap hparts =>
      obtain ⟨uri, huri, hrender⟩ := hg _ _ hparts
      exact ⟨form, _, uri, rfl, huri, hrender⟩
  cases hd with
  | left hd =>
    cases hd with
    | left hd => exact hexp UriPar.faithful_capOriginURI hd
    | right hd => exact hexp UriPar.faithful_capAbsoluteURI hd
  | right hd => exact hexp UriPar.faithful_capAuthority hd

/-- The parts of a request line. -/
theorem requestBody_parts (hd : Derives requestBody t vs) : ∃ method target ts version,
    Derives Htp.requestTarget target ts ∧
      t = method ++ ' '.toUInt8 :: (target ++ ' '.toUInt8 :: version) ∧
      vs = .str .method method :: (ts ++ [.str .version version]) := by
  cases hd with
  | @seq _ _ _ version _ _ hd hversion =>
    cases hd with
    | seq hd hsp =>
      cases hd with
      | @seq _ _ _ target _ ts hd htarget =>
        cases hd with
        | @seq _ _ method _ _ _ hmethod hsp' =>
          cases hmethod
          cases hversion
          refine ⟨method, target, ts, version, htarget, ?_, ?_⟩
          · rw [UriPar.derives_ch hsp, UriPar.derives_ch hsp']
            simp
          · rw [hsp.silent rfl, hsp'.silent rfl]
            simp

theorem requestBody_render (hd : Derives requestBody t vs) :
    ∃ reqline, reqlineFromAst vs = some reqline ∧ reqline.render = t ++ [0x0D, 0x0A] := by
  obtain ⟨method, target, ts, version, htarget, rfl, rfl⟩ := requestBody_parts hd
  obtain ⟨form, parts, uri, rfl, huri, rfl⟩ := requestTarget_render htarget
  refine ⟨⟨method, uri, version⟩, ?_, by simp [HtsReqline.render]⟩
  simp [reqlineFromAst, huri]

end Captures

/-! ### A call that succeeds -/

section Calls

variable {B : ByteBuffer} {c c₁ : Htconn B} {base : ℕ} {d : List UInt8} {oom : Bool}

/-- The offset stays behind the base, and from the base on nothing is lost. -/
structure Behind (base : ℕ) (w : List UInt8) (c : Htconn B) : Prop where
  base_le : base ≤ B.tell c.input
  fin_le : B.fin c.input ≤ base + B.max c.input
  stream : c.stream base = w

theorem Behind.moved {w : List UInt8} {input : B.Buf} {p : ℕ} (h : Behind base w c)
    (hmoved : B.Moved c.input input p) (hp : base ≤ p) :
    Behind base w { c with input := input } where
  base_le := by
    rw [hmoved.tell]
    exact hp
  fin_le := by
    rw [hmoved.fin, hmoved.max]
    exact h.fin_le
  stream := by
    rw [← h.stream]
    simp only [Htconn.stream, hmoved.fin, hmoved.window]

theorem htcReadScan_behind {w : List UInt8} (h : Behind base w c) (d : List UInt8) :
    Behind base w (htcReadScan base d c).2 := by
  by_cases hd : d = []
  · simpa only [htcReadScan, if_pos hd] using h
  by_cases hlen : B.max c.input < d.length
  · simpa only [htcReadScan, if_neg hd, if_pos hlen] using h
  obtain ⟨input, hseek, hmoved⟩ :=
    B.seek_of_le c.input base (h.base_le.trans (B.tell_le c.input)) h.fin_le
  rcases hp : htcReadData { c with input := input } with ⟨result, c₁⟩
  have hkept : Kept { c with input := input } c₁ := by
    have hreading := htcReadData_reading { c with input := input }
    rw [hp] at hreading
    exact hreading.kept
  have htell : B.tell c₁.input = base := hkept.tell.trans hmoved.tell
  have hmax : B.max c₁.input = B.max c.input := hkept.max.trans hmoved.max
  have hfin : B.fin c.input ≤ B.fin c₁.input := by
    rw [← hmoved.fin]
    exact hkept.fin
  have hroom := B.fin_le c₁.input
  rw [htell] at hroom
  have h₁ : Behind base w c₁ := by
    refine ⟨htell.ge, hroom, ?_⟩
    have hunread := hkept.bytes
    simp only [BufferOps.unread, htell, hmoved.tell, hmoved.fin, hmoved.window] at hunread
    exact hunread.trans h.stream
  obtain ⟨input₁, hback, hmoved₁⟩ := B.seek_of_le c₁.input (B.tell c.input)
    ((B.tell_le c.input).trans hfin) (hroom.trans (Nat.add_le_add_right h.base_le _))
  have h₂ := h₁.moved hmoved₁ h.base_le
  simp only [htcReadScan, if_neg hd, if_neg hlen, hseek, hp, hback]
  split_ifs
  all_goals try exact h₂
  all_goals
    obtain ⟨p, hle, hscan⟩ := scan_moved hd input₁
    exact h₂.moved hscan (h.base_le.trans (by rw [← hmoved₁.tell]; exact hle))

/-- What a successful call has parsed lies between the base and the offset. -/
theorem htsReadScanParse_ok {g : Rule} {list : List Node} (hbase : base ≤ B.tell c.input)
    (h : htsReadScanParse base d g oom c = ((some .ok, list), c₁)) :
    parse g (B.window c₁.input base (B.tell c₁.input)) = some (list, []) ∧
      Behind base (c.stream base) c₁ := by
  by_cases hroom : B.fin c.input - base > B.max c.input
  · rw [htsReadScanParse, if_neg (not_not.mpr (hbase.trans (B.tell_le c.input))), if_pos hroom] at h
    cases h
  have hstart : Behind base (c.stream base) c := ⟨hbase, by omega, rfl⟩
  have hfin := hbase.trans (B.tell_le c.input)
  have hscan := htcReadScan_behind hstart d
  rcases hp : htcReadScan base d c with ⟨e, c'⟩
  rw [hp] at hscan
  by_cases hok : e = some .ok
  · subst hok
    obtain ⟨input₀, hseek₀, hmoved₀⟩ := B.seek_of_le c'.input base
      (hscan.base_le.trans (B.tell_le c'.input)) hscan.fin_le
    obtain ⟨input, hseek, hmoved⟩ := B.seek_of_le input₀ (B.tell c'.input)
      (by rw [hmoved₀.fin]; exact B.tell_le c'.input)
      (by rw [hmoved₀.fin, hmoved₀.max]; exact B.fin_le c'.input)
    have hlater := hscan.moved (hmoved₀.trans hmoved) hscan.base_le
    have htext : B.window input₀ (B.tell input₀) (B.tell input₀ + (B.tell c'.input - base)) =
        B.window input base (B.tell c'.input) := by
      rw [hmoved₀.tell, hmoved.window, Nat.add_sub_cancel' hscan.base_le]
    rw [htsReadScanParse_eq hfin hstart.fin_le, hp] at h
    simp only [hseek₀, htext, hseek] at h
    cases oom with
    | true => cases h
    | false =>
      cases hparse : parse g (B.window input base (B.tell c'.input)) with
      | none =>
        rw [hparse] at h
        cases h
      | some out =>
        obtain ⟨vs, rest⟩ := out
        rw [hparse] at h
        cases rest with
        | cons a rest => cases h
        | nil =>
          obtain ⟨hlist, rfl⟩ := Prod.mk.inj h
          obtain rfl := (Prod.mk.inj hlist).2
          refine ⟨?_, hlater⟩
          simp only [hmoved.tell]
          exact hparse
  · rw [htsReadScanParse_scan hfin hstart.fin_le hok hp] at h
    exact absurd (Prod.mk.inj (Prod.mk.inj h).1).1 hok

theorem reqlineResult_ok {e : Option Err} {list : List Node} {reqline : HtsReqline}
    (h : reqlineResult (e, list) = (some .ok, some reqline)) :
    e = some .ok ∧ reqlineFromAst list = some reqline := by
  unfold reqlineResult at h
  split at h
  · next heq =>
    obtain ⟨rfl, rfl⟩ := Prod.mk.inj heq
    split at h
    · next hline => exact ⟨rfl, hline.trans (Prod.mk.inj h).2⟩
    · cases h
  · cases h

/-- The bytes from the base to the offset that a call has left. -/
def consumed (base : ℕ) (c c₁ : Htconn B) : List UInt8 :=
  (c.stream base).take (B.tell c₁.input - base)

theorem Behind.consumed_eq (h : Behind base (c.stream base) c₁) :
    consumed base c c₁ = B.window c₁.input base (B.tell c₁.input) := by
  rw [consumed, ← h.stream, Htconn.stream,
    ← BufferOps.window_append h.base_le (B.tell_le c₁.input), List.append_assoc, List.take_left']
  rw [BufferOps.window_length]

/-- The bytes that are consumed end with the first line end, and are those of the
request line that is returned. -/
theorem read_reqline_consumed {reqline : HtsReqline} (hbase : base ≤ B.tell c.input)
    (h : htsReadReqline base oom c = ((some .ok, some reqline), c₁)) :
    consumed base c c₁ = reqline.render ∧
      ∃ i, FirstAt [0x0D, 0x0A] (c.stream base) 0 i ∧ B.tell c₁.input = base + (i + 2) := by
  simp only [htsReadReqline] at h
  rcases hcall : htsReadScanParse base [0x0D, 0x0A] Htp.requestLine oom c with ⟨⟨e, list⟩, c'⟩
  rw [hcall] at h
  obtain ⟨hresult, rfl⟩ := Prod.mk.inj h
  obtain ⟨rfl, hline⟩ := reqlineResult_ok hresult
  obtain ⟨hparse, hbehind⟩ := htsReadScanParse_ok hbase hcall
  obtain ⟨text, htext, hisline⟩ := isLine_of_parse_pair avoids_requestBody
    (show parse (.seq requestBody (pair 0x0D 0x0A)) _ = _ from hparse)
  obtain ⟨t, ht, hd⟩ := derives_of_parse hisline.parse
  rw [List.append_nil] at ht
  subst ht
  obtain ⟨reqline', hline', hrender⟩ := requestBody_render hd
  rw [hline] at hline'
  obtain rfl := Option.some.inj hline'
  have hconsumed := hbehind.consumed_eq.trans htext
  refine ⟨hconsumed.trans hrender.symm, text.length, ?_, ?_⟩
  · rw [← List.take_append_drop (B.tell c'.input - base) (c.stream base)]
    change FirstAt [0x0D, 0x0A] (consumed base c c' ++ _) 0 text.length
    rw [hconsumed, List.append_assoc]
    exact FirstAt.behind hisline.clean _
  · have hlen := congrArg List.length htext
    have hle := hbehind.base_le
    simp only [BufferOps.window_length, List.length_append, List.length_cons,
      List.length_nil] at hlen
    change B.tell c'.input = _
    omega

/-- Whenever a request line is accepted, the bytes consumed from the base on end
with the first line end and are rebuilt from what is returned; so two accepted
request lines that differ are never returned as the same. -/
theorem read_reqline_lossless (B : ByteBuffer) (c c₁ : Htconn B) (base : ℕ) (oom : Bool)
    (reqline : HtsReqline) (hbase : base ≤ B.tell c.input)
    (h : htsReadReqline base oom c = ((some .ok, some reqline), c₁)) :
    consumed base c c₁ = reqline.render ∧
    (∃ i, FirstAt [0x0D, 0x0A] (c.stream base) 0 i ∧ B.tell c₁.input = base + (i + 2)) ∧
    ∀ (B' : ByteBuffer) (c' c₁' : Htconn B') (base' : ℕ) (oom' : Bool),
      base' ≤ B'.tell c'.input →
      htsReadReqline base' oom' c' = ((some .ok, some reqline), c₁') →
      consumed base' c' c₁' = consumed base c c₁ := by
  obtain ⟨hrender, hfirst⟩ := read_reqline_consumed hbase h
  refine ⟨hrender, hfirst, fun B' c' c₁' base' oom' hbase' h' => ?_⟩
  rw [(read_reqline_consumed hbase' h').1, hrender]

/-- The request line of `GET / HTTP/1.1`. -/
def getReqline : HtsReqline where
  method := ['G', 'E', 'T'].map Char.toUInt8
  target := ⟨none, none, none, some ['/'.toUInt8], none⟩
  version := ['H', 'T', 'T', 'P', '/', '1', '.', '1'].map Char.toUInt8

theorem read_reqline_lossless_get : ∃ c c₁ : Htconn Ring.buffer,
    htsReadReqline 0 false c = ((some .ok, some getReqline), c₁) ∧
      consumed 0 c c₁ = getReqline.render ∧
      ∃ i, FirstAt [0x0D, 0x0A] (c.stream 0) 0 i ∧ Ring.buffer.tell c₁.input = 0 + (i + 2) := by
  have hstream : (headConn (getLine ++ noField)).stream 0 =
      71 :: getLine ++ 0x0D :: 0x0A :: [0x0D, 0x0A] := rfl
  obtain ⟨c₁, ⟨n, hn⟩, -⟩ :=
    read_reqline_text (by decide) rfl hstream (by decide) (by decide)
  obtain ⟨c, -, hcall, -⟩ := Retries.of_retry hn
  have h := read_reqline_lossless Ring.buffer c c₁ 0 false getReqline (Nat.zero_le _) hcall
  exact ⟨c, c₁, hcall, h.1, h.2.1⟩

end Calls

/-! ### Authority forms -/

/-- A request line in authority form, without its end. -/
def authorityLine (method host port version : List UInt8) : List UInt8 :=
  method ++ ' '.toUInt8 :: ((host ++ ':'.toUInt8 :: port) ++ ' '.toUInt8 :: version)

namespace UriPar

variable {t h p w : List UInt8} {vs : List Node}

theorem parse_origin_none (hd : Derives host h vs) :
    parse capOriginURI (h ++ ':'.toUInt8 :: w) = none := by
  have hnone : ∀ a u, a ≠ '/'.toUInt8 → parse capOriginURI (a :: u) = none := by
    intro a u ha
    refine parse_none_of_first rfl ?_
    by_contra hfirst
    have hslash : a = '/'.toUInt8 := by
      simpa [capOriginURI, pathAbsolute, readTerm, first, nullable, fslash, ch, sym] using hfirst
    exact ha hslash
  cases h with
  | nil => exact hnone _ _ (by decide)
  | cons a u =>
    refine hnone _ _ ?_
    rintro rfl
    exact hd.avoids (b := '/'.toUInt8) rfl List.mem_cons_self

theorem parse_absolute_none (hd : Derives host h vs) (hscheme : ¬ Generates scheme h) :
    parse capAbsoluteURI (h ++ ':'.toUInt8 :: w) = none := by
  cases hp : parse capAbsoluteURI (h ++ ':'.toUInt8 :: w) with
  | none => rfl
  | some out =>
    obtain ⟨ts, r⟩ := out
    obtain ⟨t, ht, habs⟩ := derives_of_parse hp
    obtain ⟨a, as, u, _, q, _, ha, -, -, rfl, -⟩ := derives_capAbsoluteURI habs
    rw [List.append_assoc, List.cons_append] at ht
    have hsame : ':'.toUInt8 ∉ h → Generates scheme h := fun hcolon => by
      rw [eq_of_append_cons ht hcolon (ha.avoids rfl)]
      exact ⟨as, ha⟩
    cases hd with
    | left hd =>
      cases hd with
      | left hd =>
        obtain ⟨b, h, rfl, hb⟩ := hd.first rfl
        obtain ⟨b', a, rfl, hb'⟩ := ha.first rfl
        rw [← (List.cons.inj ht).1, eq_of_first_ipLiteral hb] at hb'
        cases hb'
      | right hd => exact absurd (hsame (hd.avoids rfl)) hscheme
    | right hd => exact absurd (hsame (hd.avoids rfl)) hscheme

theorem parse_absolute_some (hscheme : Generates scheme h) :
    ∃ ts r, parse capAbsoluteURI (h ++ ':'.toUInt8 :: w) = some (.str .scheme h :: ts, r) := by
  obtain ⟨vs, hd⟩ := hscheme
  obtain ⟨⟨ts, y⟩, hhier⟩ : ∃ out, parse capHeirpart w = some out := by
    obtain ⟨⟨us, y⟩, hempty⟩ := parse_rep_some 0 pchar w
    cases hp :
      parse (alts capNetPath [readTerm .path pathAbsolute, readTerm .path pathRootless]) w with
    | none => exact ⟨_, (parse_alt_right hp).trans (parse_cap_some hempty)⟩
    | some out => exact ⟨out, parse_alt_left hp⟩
  obtain ⟨⟨qs, r⟩, hquery⟩ : ∃ out, parse capQuery y = some out := parse_rep_some 1 _ y
  exact ⟨_, _, parse_capAbsoluteURI_of hd hhier hquery⟩

/-- In front of a space, an authority is parsed in full. -/
theorem parse_capAuthority (hd : Derives host h vs) (hfits : HostFits h)
    (hport : Generates port p) :
    parse capAuthority (h ++ ':'.toUInt8 :: (p ++ ' '.toUInt8 :: w)) =
      some ([.str .host h, .str .port p], ' '.toUInt8 :: w) := by
  have hhost := parse_host hd hfits
    (heads_cons List.mem_cons_self : Followed [':', '/', '?']
      (':'.toUInt8 :: (p ++ ' '.toUInt8 :: w)))
  obtain ⟨ps, hport⟩ := hport
  have hdigits : Exact (Followed [' ']) port :=
    Exact.rep_of_any exact_set fun _ => parse_none_of_followed rfl rfl
  have hopt : Exact (Followed [' ']) (.rep 0 1 (.seq colon (readTerm .port port))) :=
    Exact.opt ((exact_ch _ _).seq_of_any hdigits.cap) (parse_none_of_followed rfl rfl)
  have hd : Derives (.rep 0 1 (.seq colon (readTerm .port port))) (([':'.toUInt8] ++ p) ++ []) _ :=
    .copy (.seq (derives_ch_self ':') (.cap hport)) .none
  have hparse := hopt _ _ (' '.toUInt8 :: w) hd (heads_cons List.mem_cons_self)
  rw [List.append_nil] at hparse
  exact parse_seq.mpr ⟨_, _, _, parse_cap_append hhost, hparse, rfl⟩

end UriPar

section Authority

variable {method host port version w : List UInt8} {vs : List Node}

theorem parse_requestTarget_authority (hd : Derives UriPar.host host vs) (hfits : HostFits host)
    (hport : Generates UriPar.port port) (hscheme : ¬ Generates UriPar.scheme host) :
    parse Htp.requestTarget (host ++ ':'.toUInt8 :: (port ++ ' '.toUInt8 :: w)) =
      some ([.lst .authorityForm [.str .host host, .str .port port]], ' '.toUInt8 :: w) := by
  have horigin : parse (readExp .originForm UriPar.capOriginURI) _ = none :=
    parse_cap_none (UriPar.parse_origin_none hd (w := port ++ ' '.toUInt8 :: w))
  have habsolute : parse (readExp .absoluteForm UriPar.capAbsoluteURI) _ = none :=
    parse_cap_none (UriPar.parse_absolute_none hd hscheme (w := port ++ ' '.toUInt8 :: w))
  exact (parse_alt_right ((parse_alt_right horigin).trans habsolute)).trans
    (parse_cap_some (UriPar.parse_capAuthority hd hfits hport))

theorem parse_requestTarget_scheme (hd : Derives UriPar.host host vs)
    (hscheme : Generates UriPar.scheme host) (w : List UInt8) : ∃ ts r,
    parse Htp.requestTarget (host ++ ':'.toUInt8 :: w) =
      some ([.lst .absoluteForm (.str .scheme host :: ts)], r) := by
  obtain ⟨ts, r, habsolute⟩ := UriPar.parse_absolute_some hscheme (w := w)
  have horigin : parse (readExp .originForm UriPar.capOriginURI) _ = none :=
    parse_cap_none (UriPar.parse_origin_none hd (w := w))
  exact ⟨ts, r, parse_alt_left ((parse_alt_right horigin).trans (parse_cap_some habsolute))⟩

theorem uriFromAst_scheme {a : List UInt8} {ts : List Node} {uri : Uri}
    (h : uriFromAst (.str .scheme a :: ts) = some uri) : uri.scheme ≠ none :=
  have hfold : ts.foldlM uriPart ⟨some a, none, none, none, none⟩ = some uri := h
  uriFold_keeps (P := (·.scheme ≠ none)) (fun hpart => (uriPart_keeps hpart).1) hfold
    (Option.some_ne_none a)

theorem parse_method (hmethod : Generates Htp.token method) (u : List UInt8) :
    parse (.seq (readTerm .method Htp.token) Htp.sp) (method ++ ' '.toUInt8 :: u) =
      some ([.str .method method], u) := by
  have hexact : Exact (Followed [' ']) Htp.token :=
    Exact.rep_of_any exact_set fun _ => UriPar.parse_none_of_followed rfl rfl
  obtain ⟨ms, hd⟩ := hmethod
  have hspace : Followed [' '] (' '.toUInt8 :: u) := heads_cons List.mem_cons_self
  exact parse_seq.mpr ⟨_, _, _, parse_cap_append (hexact _ _ _ hd hspace), rfl, rfl⟩

theorem parse_version (hversion : parse Htp.httpVersion version = some ([], [])) :
    parse (readTerm .version Htp.httpVersion) version = some ([.str .version version], []) := by
  have hcap := parse_cap_some (f := fun text _ => Node.str .version text) hversion
  simpa [readTerm] using hcap

theorem parse_authorityLine (hmethod : Generates Htp.token method)
    (hd : Derives UriPar.host host vs) (hfits : HostFits host)
    (hport : Generates UriPar.port port) (hversion : parse Htp.httpVersion version = some ([], []))
    (hscheme : ¬ Generates UriPar.scheme host) :
    parse requestBody (authorityLine method host port version) =
      some ([.str .method method, .lst .authorityForm [.str .host host, .str .port port],
        .str .version version], []) := by
  have htarget := parse_requestTarget_authority (w := version) hd hfits hport hscheme
  have hline : authorityLine method host port version =
      method ++ ' '.toUInt8 :: (host ++ ':'.toUInt8 :: (port ++ ' '.toUInt8 :: version)) := by
    simp [authorityLine]
  rw [hline]
  exact parse_seq.mpr ⟨_, _, _, parse_seq.mpr ⟨_, _, _, parse_seq.mpr ⟨_, _, _,
    parse_method hmethod _, htarget, rfl⟩, rfl, rfl⟩, parse_version hversion, rfl⟩

/-- Whatever is captured from the line, its target has a scheme. -/
theorem scheme_of_authorityLine {u : List UInt8} {nodes : List Node} {reqline : HtsReqline}
    (hmethod : Generates Htp.token method) (hd : Derives UriPar.host host vs)
    (hscheme : Generates UriPar.scheme host)
    (hparse : parse Htp.requestLine (authorityLine method host port version ++ u) =
      some (nodes, []))
    (hline : reqlineFromAst nodes = some reqline) : reqline.target.scheme ≠ none := by
  obtain ⟨ts, r, htarget⟩ := parse_requestTarget_scheme hd hscheme
    (port ++ ' '.toUInt8 :: (version ++ u))
  have htext : authorityLine method host port version ++ u = method ++ ' '.toUInt8 ::
      (host ++ ':'.toUInt8 :: (port ++ ' '.toUInt8 :: (version ++ u))) := by
    simp [authorityLine]
  rw [htext] at hparse
  obtain ⟨vs₁, r₁, ws₁, h₁, -, rfl⟩ := parse_seq.mp hparse
  obtain ⟨vs₂, r₂, ws₂, h₂, -, rfl⟩ := parse_seq.mp h₁
  obtain ⟨vs₃, r₃, ws₃, h₃, -, rfl⟩ := parse_seq.mp h₂
  obtain ⟨vs₄, r₄, ws₄, h₄, h₅, rfl⟩ := parse_seq.mp h₃
  rw [parse_method hmethod] at h₄
  obtain ⟨rfl, rfl⟩ := Prod.mk.inj (Option.some.inj h₄)
  rw [htarget] at h₅
  obtain ⟨rfl, rfl⟩ := Prod.mk.inj (Option.some.inj h₅)
  simp only [List.cons_append, List.nil_append] at hline
  unfold reqlineFromAst at hline
  split at hline
  · next heq =>
    obtain ⟨uri, huri, rfl⟩ := Option.map_eq_some_iff.mp hline
    simp only [List.cons.injEq, Node.lst.injEq] at heq
    obtain ⟨-, ⟨-, rfl⟩, -⟩ := heq
    exact uriFromAst_scheme huri
  · cases hline

/-- The parts of an authority form, each accepted in full by its rule. -/
structure IsAuthority (method host port version : List UInt8) : Prop where
  method : parse Htp.token method = some ([], [])
  host : parse UriPar.host host = some ([], [])
  port : parse UriPar.port port = some ([], [])
  version : parse Htp.httpVersion version = some ([], [])

theorem IsAuthority.clean (h : IsAuthority method host port version) :
    0x0D ∉ authorityLine method host port version := by
  have hm := (derives_of_full h.method).avoids (b := 0x0D) rfl
  have hh := (derives_of_full h.host).avoids (b := 0x0D) rfl
  have hp := (derives_of_full h.port).avoids (b := 0x0D) rfl
  have hv := (derives_of_full h.version).avoids (b := 0x0D) rfl
  simp only [authorityLine, List.mem_append, List.mem_cons, not_or]
  exact ⟨hm, by decide, ⟨hh, by decide, hp⟩, by decide, hv⟩

variable {B : ByteBuffer} {c : Htconn B} {base : ℕ} {extra : List UInt8}

/-- What is returned for a request line in authority form. -/
def authorityReqline (method host port version : List UInt8) : HtsReqline :=
  ⟨method, ⟨none, some host, some port, none, none⟩, version⟩

/-- A host that is a scheme is taken for one. -/
theorem read_authority_scheme (h : IsAuthority method host port version)
    (htell : B.tell c.input = base)
    (hstream : c.stream base = authorityLine method host port version ++ 0x0D :: 0x0A :: extra)
    (hs : Streams c.security c.socket.recv)
    (hfit : (authorityLine method host port version).length + 2 ≤ B.max c.input)
    (hscheme : Generates UriPar.scheme host) (c₂ : Htconn B) :
    ¬ Settles (htsReadReqline base false) readAgain c
      ((some .ok, some (authorityReqline method host port version)), c₂) := by
  intro hsettles'
  obtain ⟨c₁, hsettles, -⟩ := read_reqline_text h.clean htell hstream hs hfit
  obtain ⟨hresult, -⟩ := Prod.mk.inj (hsettles.unique hsettles')
  obtain ⟨hok, hline⟩ := reqlineResult_ok hresult
  exact scheme_of_authorityLine ⟨_, derives_of_full h.method⟩
    (derives_of_full h.host) hscheme (parse_of_parsed hok) hline rfl

/-- A request line in authority form, within the bounds of the rules, is accepted
with its host and its port alone if and only if the host is not a scheme. -/
theorem read_authority_iff (B : ByteBuffer) (c : Htconn B) (base : ℕ)
    (method host port version extra : List UInt8) (h : IsAuthority method host port version)
    (htell : B.tell c.input = base)
    (hstream : c.stream base = authorityLine method host port version ++ 0x0D :: 0x0A :: extra)
    (hs : Streams c.security c.socket.recv)
    (hfit : (authorityLine method host port version).length + 2 ≤ B.max c.input) :
    (∃ c₁, Settles (htsReadReqline base false) readAgain c
      ((some .ok, some (authorityReqline method host port version)), c₁)) ↔
    ¬ Generates UriPar.scheme host := by
  constructor
  · rintro ⟨c₂, hsettles⟩ hscheme
    exact read_authority_scheme h htell hstream hs hfit hscheme c₂ hsettles
  · intro hscheme
    obtain ⟨c₁, hsettles, -⟩ := read_reqline_text h.clean htell hstream hs hfit
    have hbody := parse_authorityLine ⟨_, derives_of_full h.method⟩
      (derives_of_full h.host) (UriPar.hostFits_of_parse h.host (List.append_nil host).symm)
      ⟨_, derives_of_full h.port⟩ h.version hscheme
    have hisline : IsLine 0x0D requestBody (authorityLine method host port version, _) :=
      ⟨h.clean, hbody⟩
    have hparsed : parse Htp.requestLine (authorityLine method host port version ++ _) = _ :=
      parse_requestLine hisline
    rw [parsed, hparsed] at hsettles
    exact ⟨c₁, hsettles⟩

end Authority

/-- A connection that delivers the bytes to a ring of 64. -/
def lineConn (s : List UInt8) : Htconn Ring.buffer where
  security := .unsecured
  input := Ring.init 64 (by decide)
  output := Ring.init 64 (by decide)
  socket := ⟨giveBack s [], [], []⟩

def connect : List UInt8 := ['C', 'O', 'N', 'N', 'E', 'C', 'T'].map Char.toUInt8

def eighty : List UInt8 := ['8', '0'].map Char.toUInt8

def http11 : List UInt8 := ['H', 'T', 'T', 'P', '/', '1', '.', '1'].map Char.toUInt8

/-- `example.com`. -/
def exampleCom : List UInt8 :=
  ['e', 'x', 'a', 'm', 'p', 'l', 'e', '.', 'c', 'o', 'm'].map Char.toUInt8

/-- `CONNECT 1.2.3.4:80 HTTP/1.1`. -/
theorem read_authority_dotted : ∃ c₁, Settles (htsReadReqline 0 false) readAgain
    (lineConn (authorityLine connect dotted eighty http11 ++ [0x0D, 0x0A]))
    ((some .ok, some (authorityReqline connect dotted eighty http11)), c₁) := by
  refine (read_authority_iff Ring.buffer _ 0 connect dotted eighty http11 [] ⟨rfl, rfl, rfl, rfl⟩
    rfl rfl (by decide) (by decide)).mpr ?_
  rintro ⟨vs, hd⟩
  obtain ⟨a, u, ha, hfirst⟩ := hd.first rfl
  rw [← (List.cons.inj ha).1] at hfirst
  cases hfirst

/-- `CONNECT example.com:80 HTTP/1.1`: the host is taken for a scheme. -/
theorem read_authority_name : IsAuthority connect exampleCom eighty http11 ∧
    (lineConn (authorityLine connect exampleCom eighty http11 ++ [0x0D, 0x0A])).stream 0 =
      authorityLine connect exampleCom eighty http11 ++ [0x0D, 0x0A] ∧
    (authorityLine connect exampleCom eighty http11).length + 2 ≤ 64 ∧
    ∀ c₁, ¬ Settles (htsReadReqline 0 false) readAgain
      (lineConn (authorityLine connect exampleCom eighty http11 ++ [0x0D, 0x0A]))
      ((some .ok, some (authorityReqline connect exampleCom eighty http11)), c₁) := by
  have h : IsAuthority connect exampleCom eighty http11 := ⟨rfl, rfl, rfl, rfl⟩
  have hstream : (lineConn (authorityLine connect exampleCom eighty http11 ++ [0x0D, 0x0A])).stream
      0 = authorityLine connect exampleCom eighty http11 ++ 0x0D :: 0x0A :: [] := rfl
  exact ⟨h, hstream, by decide, read_authority_scheme h rfl hstream (by decide) (by decide)
    (generates_of_parse ⟨[], rfl⟩)⟩

end Lawd
