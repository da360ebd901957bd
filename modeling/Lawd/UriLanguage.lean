import Lawd.IpAddress

/-!
# The language of absolute URIs

Read as a context-free grammar, `absolute_URI` derives texts whose registered
name begins like an IPv4 address. The parser takes that address for the host and
leaves the rest. Every other derived text is accepted as a whole, and what is
captured as host is the host.
-/
namespace Lawd

open Library Library.Peg

namespace UriPar

/-! ### Rules that take their texts in full -/

theorem exact_scheme : Exact (Followed [':']) scheme :=
  exact_set.seq_of_any (Exact.rep_of_any exact_set fun _ => parse_none_of_followed rfl rfl)

theorem exact_pctEncoded : Exact (fun _ => True) pctEncoded :=
  ((exact_ch _ _).seq_of_any exact_set).seq_of_any exact_set

theorem eq_of_first_pctEncoded {a : UInt8} (ha : first pctEncoded a = true) :
    a = '%'.toUInt8 := by
  simpa [pctEncoded, seqs, first, nullable, ch, sym] using ha

theorem subDelims_disjoint {a : UInt8} (ha : subDelims a = true) :
    unreserved a = false ∧ a ≠ '%'.toUInt8 := by
  simp only [subDelims, oneOf, List.any_cons, List.any_nil, Bool.or_false, Bool.or_eq_true,
    beq_iff_eq] at ha
  obtain (rfl | rfl | rfl | rfl | rfl | rfl | rfl | rfl | rfl | rfl) | rfl := ha <;> decide

theorem exact_nameChar :
    Exact (fun _ => True) (alts (.set unreserved) [pctEncoded, .set subDelims]) := by
  have hpct : ∀ a, first pctEncoded a = true → first (set unreserved : Rule) a = false := by
    intro a ha
    rw [eq_of_first_pctEncoded ha]
    rfl
  have hdelims : ∀ a, first (set subDelims : Rule) a = true →
      first (.alt (.set unreserved) pctEncoded) a = false := by
    intro a ha
    obtain ⟨hunreserved, hne⟩ := subDelims_disjoint ha
    refine Bool.or_eq_false_iff.mpr ⟨hunreserved, ?_⟩
    by_contra hfirst
    exact hne (eq_of_first_pctEncoded (Bool.not_eq_false _ ▸ hfirst))
  exact (exact_set.alt_of_first exact_pctEncoded rfl rfl hpct).alt_of_first exact_set
    rfl rfl hdelims

theorem exact_orCh {g : Rule} {c : Char} (hg : Exact (fun _ => True) g) (hnull : nullable g = false)
    (hc : first g c.toUInt8 = false) : Exact (fun _ => True) (.alt g (ch c)) :=
  hg.alt_of_first (exact_ch _ _) hnull rfl fun a ha => by rwa [eq_of_first_ch ha]

theorem exact_pchar : Exact (fun _ => True) pchar :=
  exact_orCh (exact_orCh exact_nameChar rfl rfl) rfl rfl

theorem exact_regName : Exact (Followed [':', '/', '?']) regName :=
  exact_nameChar.rep_of_any fun _ => parse_none_of_followed rfl rfl

theorem exact_segment : Exact (Followed ['/', '?', ' ']) segment :=
  exact_pchar.rep_of_any fun _ => parse_none_of_followed rfl rfl

theorem exact_segmentNz : Exact (Followed ['/', '?', ' ']) segmentNz :=
  exact_pchar.rep_of_any fun _ => parse_none_of_followed rfl rfl

theorem exact_pathAbempty : Exact (Followed ['?', ' ']) pathAbempty := by
  have hslash : Exact (Followed ['/', '?', ' ']) (.seq fslash segment) :=
    (exact_ch _ _).seq_of_any exact_segment
  refine hslash.rep (fun t vs r hd _ => ?_) (Followed.mono rfl) fun _ => ?_
  · exact hd.heads_append (mem_of_first List.mem_cons_self) fun h => by cases h
  · exact parse_none_of_followed rfl rfl

theorem exact_pathRootless : Exact (Followed ['?', ' ']) pathRootless := by
  refine exact_segmentNz.seq exact_pathAbempty fun t vs r hd hr => ?_
  exact hd.heads_append (mem_of_first List.mem_cons_self) fun _ => Followed.mono rfl r hr

theorem exact_pathAbsolute : Exact (Followed ['?', ' ']) pathAbsolute :=
  (exact_ch _ _).seq_of_any (exact_pathRootless.opt (parse_none_of_followed rfl rfl))

theorem exact_pathEmpty {F : List UInt8 → Prop} : Exact F pathEmpty :=
  exact_pchar.rep_of_any fun h => absurd h (lt_irrefl 0)

theorem exact_capPort :
    Exact (Followed ['/', '?']) (.rep 0 1 (.seq colon (readTerm .port port))) := by
  have hport : Exact (Followed ['/', '?']) port :=
    Exact.rep_of_any exact_set fun _ => parse_none_of_followed rfl rfl
  exact Exact.opt ((exact_ch _ _).seq_of_any hport.cap) (parse_none_of_followed rfl rfl)

theorem exact_capQuery : Exact (Followed [' ']) capQuery := by
  have hchar : Exact (fun _ => True) (alts pchar [fslash, qmark]) :=
    exact_orCh (exact_orCh exact_pchar rfl rfl) rfl rfl
  have hquery : Exact (Followed [' ']) query :=
    hchar.rep_of_any fun _ => parse_none_of_followed rfl rfl
  exact Exact.opt ((exact_ch _ _).seq_of_any hquery.cap) (parse_none_of_followed rfl rfl)

theorem exact_ipLiteral : Exact (fun _ => True) ipLiteral :=
  ((exact_ch _ _).seq_of_any exact_ipv6address).seq_of_heads (exact_ch _ _) rfl
    (mem_of_first_ch List.mem_cons_self)

theorem eq_of_first_ipLiteral {a : UInt8} (ha : first ipLiteral a = true) : a = '['.toUInt8 := by
  simpa [ipLiteral, seqs, first, nullable, ch, sym] using ha

end UriPar

/-- A host that begins like an IPv4 address is one. -/
def HostFits (h : List UInt8) : Prop :=
  ∀ x y, h = x ++ y → Generates UriPar.ipv4address x → Generates UriPar.ipv4address h

namespace UriPar

variable {h r : List UInt8} {vs : List Node}

theorem parse_ipLiteral_none (hopen : '['.toUInt8 ∉ h) (hr : Followed [':', '/', '?'] r) :
    parse ipLiteral (h ++ r) = none := by
  cases h with
  | nil => exact parse_none_of_followed rfl rfl r hr
  | cons a u =>
    refine parse_none_of_first rfl ?_
    cases hfirst : first ipLiteral a with
    | false => rfl
    | true =>
      rw [eq_of_first_ipLiteral hfirst] at hopen
      exact absurd List.mem_cons_self hopen

theorem parse_host (hd : Derives host h vs) (hfits : HostFits h) (hr : Followed [':', '/', '?'] r) :
    parse host (h ++ r) = some ([], r) := by
  by_cases hip : Generates ipv4address h
  · obtain ⟨ws, hip⟩ := hip
    have hnone := parse_ipLiteral_none (hip.avoids rfl) hr
    have hv4 := exact_ipv4address h ws r hip (Followed.mono rfl r hr)
    rw [hip.silent rfl] at hv4
    exact parse_alt_left ((parse_alt_right hnone).trans hv4)
  · cases hd with
    | left hd =>
      cases hd with
      | left hd =>
        have hliteral := exact_ipLiteral h vs r hd trivial
        rw [hd.silent rfl] at hliteral
        exact parse_alt_left (parse_alt_left hliteral)
      | right hd => exact absurd ⟨vs, hd⟩ hip
    | right hd =>
      have hnone := parse_ipLiteral_none (hd.avoids rfl) hr
      have hv4 : parse ipv4address (h ++ r) = none := by
        cases hp : parse ipv4address (h ++ r) with
        | none => rfl
        | some out =>
          obtain ⟨x, y, hxy, -, hx⟩ := parse_within hp (avoids_of_followed rfl r hr)
          exact absurd (hfits x y hxy ⟨_, hx⟩) hip
      have hname := exact_regName h vs r hd hr
      rw [hd.silent rfl] at hname
      exact (parse_alt_right ((parse_alt_right hnone).trans hv4)).trans hname

/-- Of a host that does not, something is left that ends no host. -/
theorem parse_host_cut (hd : Derives host h vs) (hcut : ¬ HostFits h)
    (hr : Followed [':', '/', '?'] r) :
    ∃ a z, parse host (h ++ r) = some ([], a :: (z ++ r)) ∧
      a ≠ ':'.toUInt8 ∧ a ≠ '/'.toUInt8 ∧ a ≠ '?'.toUInt8 := by
  simp only [HostFits, not_forall] at hcut
  obtain ⟨x, y, hxy, ⟨ws, hx⟩, hip⟩ := hcut
  have hname : Derives regName h vs := by
    cases hd with
    | left hd =>
      cases hd with
      | left hd =>
        obtain ⟨a, u, rfl, ha⟩ := hd.first rfl
        obtain ⟨b, w, rfl, hb⟩ := hx.first rfl
        obtain ⟨rfl, -⟩ := List.cons.inj hxy
        rw [eq_of_first_ipLiteral ha] at hb
        cases hb
      | right hd => exact absurd ⟨vs, hd⟩ hip
    | right hd => exact hd
  have hnone := parse_ipLiteral_none (hname.avoids rfl) hr
  obtain ⟨out, hout⟩ := parse_ipv4address hx (y ++ r)
  rw [← List.append_assoc, ← hxy] at hout
  obtain ⟨x', z, hsplit, hrest, hx'⟩ := parse_within hout
    (avoids_of_followed rfl r hr)
  cases z with
  | nil =>
    rw [List.append_nil] at hsplit
    rw [hsplit] at hip
    exact absurd ⟨_, hx'⟩ hip
  | cons a z =>
    have hmem : a ∈ h := by simp [hsplit]
    refine ⟨a, z, parse_alt_left ((parse_alt_right hnone).trans ?_), ?_, ?_, ?_⟩
    · rw [hout, ← hx'.silent rfl, ← List.cons_append, ← hrest]
    · rintro rfl
      exact hname.avoids rfl hmem
    · rintro rfl
      exact hname.avoids rfl hmem
    · rintro rfl
      exact hname.avoids rfl hmem

theorem hostFits_of_parse {s : List UInt8}
    (hp : parse host s = some (vs, r)) (hs : s = h ++ r) : HostFits h := by
  rintro x y rfl ⟨ws, hx⟩
  have hliteral : parse ipLiteral s = none := by
    obtain ⟨a, u, rfl, ha⟩ := hx.first rfl
    rw [hs]
    refine parse_none_of_first rfl ?_
    by_contra hfirst
    rw [Bool.not_eq_false] at hfirst
    rw [eq_of_first_ipLiteral hfirst] at ha
    cases ha
  obtain ⟨out, hout⟩ := parse_ipv4address hx (y ++ r)
  rw [← List.append_assoc, ← hs] at hout
  have hhost : parse host s = some out :=
    parse_alt_left ((parse_alt_right hliteral).trans hout)
  rw [hp] at hhost
  obtain rfl := Option.some.inj hhost
  obtain ⟨z, hz, hd⟩ := derives_of_parse hout
  rw [hs] at hz
  rw [List.append_cancel_right hz]
  exact ⟨_, hd⟩

theorem parse_ch_seq_none {c : Char} {g : Rule} {a : UInt8} {u : List UInt8}
    (ha : a ≠ c.toUInt8) : parse (.seq (ch c) g) (a :: u) = none := by
  simp [parse, ch, sym, ha]

end UriPar

/-- The host of the text behind the scheme. -/
def HierHost (t h : List UInt8) : Prop := ∃ p u,
  Generates UriPar.host h ∧ Generates (.rep 0 1 (.seq UriPar.colon UriPar.port)) p ∧
    Generates UriPar.pathAbempty u ∧ t = '/'.toUInt8 :: '/'.toUInt8 :: (h ++ (p ++ u))

/-- The host of an absolute URI. -/
def HostPart (s h : List UInt8) : Prop := ∃ a t q,
  Generates UriPar.scheme a ∧ HierHost t h ∧
    Generates (.rep 0 1 (.seq UriPar.qmark UriPar.query)) q ∧ s = a ++ ':'.toUInt8 :: (t ++ q)

namespace UriPar

variable {s t h r : List UInt8} {vs : List Node}

theorem strip_capAbsoluteURI : strip capAbsoluteURI = absoluteURI := rfl

theorem derives_capAbsoluteURI (hd : Derives capAbsoluteURI s vs) :
    ∃ a as t ts q qs, Derives scheme a as ∧ Derives capHeirpart t ts ∧ Derives capQuery q qs ∧
      s = a ++ ':'.toUInt8 :: (t ++ q) ∧ vs = .str .scheme a :: (ts ++ qs) := by
  cases hd with
  | seq hd hquery =>
    cases hd with
    | seq hd hhier =>
      cases hd with
      | seq hd hcolon =>
        have hcs := hcolon.silent rfl
        cases hd with
        | cap hd =>
          refine ⟨_, _, _, _, _, _, hd, hhier, hquery, ?_, ?_⟩
          · rw [derives_ch hcolon, List.append_assoc, List.append_assoc, List.singleton_append]
          · rw [hcs]
            rfl

/-- The alternative of `cap_heirpart` with an authority. -/
abbrev capNetPath : Rule := seqs fslash [fslash, capAuthority, readTerm .path pathAbempty]

theorem derives_capNetPath (hd : Derives capNetPath t vs) :
    ∃ h hs p ps u us, Derives host h hs ∧
      Derives (.rep 0 1 (.seq colon (readTerm .port port))) p ps ∧ Derives pathAbempty u us ∧
      t = '/'.toUInt8 :: '/'.toUInt8 :: (h ++ (p ++ u)) ∧
      vs = .str .host h :: (ps ++ [.str .path u]) := by
  cases hd with
  | seq hd hpath =>
    cases hd with
    | seq hd hauth =>
      have hns := hd.silent rfl
      cases hd with
      | seq hd hd' =>
        cases hauth with
        | seq hhost hport =>
          cases hhost with
          | cap hhost =>
            cases hpath with
            | cap hpath =>
              refine ⟨_, _, _, _, _, _, hhost, hport, hpath, ?_, ?_⟩
              · rw [derives_ch hd, derives_ch hd']
                simp
              · rw [hns]
                simp

theorem hierHost_of_derives {hs ps us : List Node} {p u : List UInt8} (hhost : Derives host h hs)
    (hport : Derives (.rep 0 1 (.seq colon (readTerm .port port))) p ps)
    (hpath : Derives pathAbempty u us) :
    HierHost ('/'.toUInt8 :: '/'.toUInt8 :: (h ++ (p ++ u))) h :=
  ⟨p, u, ⟨hs, hhost⟩, ⟨[], derives_strip hport⟩, ⟨us, hpath⟩, rfl⟩

theorem followed_port {p u : List UInt8} {ps us : List Node}
    (hport : Derives (.rep 0 1 (.seq colon (readTerm .port port))) p ps)
    (hpath : Derives pathAbempty u us) (hr : Followed ['?'] r) :
    Followed [':', '/', '?'] (p ++ (u ++ r)) ∧ Followed ['/', '?'] (u ++ r) := by
  have hu : Followed ['/', '?'] (u ++ r) :=
    hpath.heads_append (mem_of_first List.mem_cons_self) fun _ => Followed.mono rfl r hr
  exact ⟨hport.heads_append (mem_of_first List.mem_cons_self) fun _ => Followed.mono rfl _ hu, hu⟩

/-- The parse of an authority and its path from the parses of their parts. -/
theorem parse_capNetPath {v w y : List UInt8} {hs ps us : List Node}
    (hhost : parse (readTerm .host host) v = some (hs, y))
    (hport : parse (.rep 0 1 (.seq colon (readTerm .port port))) y = some (ps, w))
    (hpath : parse (readTerm .path pathAbempty) w = some (us, r)) :
    parse capNetPath ('/'.toUInt8 :: '/'.toUInt8 :: v) = some (hs ++ (ps ++ us), r) := by
  have hslashes : parse (.seq fslash fslash) ('/'.toUInt8 :: '/'.toUInt8 :: v) = some ([], v) := rfl
  have hauth : parse capAuthority v = some (hs ++ ps, w) :=
    parse_seq.mpr ⟨_, _, _, hhost, hport, rfl⟩
  refine parse_seq.mpr ⟨_, _, _, parse_seq.mpr ⟨_, _, _, hslashes, hauth, rfl⟩, hpath, ?_⟩
  rw [List.nil_append, List.append_assoc]

theorem parse_capNetPath_none (hd : Derives pathAbsolute t vs) (hr : Followed ['?'] r) :
    parse capNetPath (t ++ r) = none := by
  cases hp : parse capNetPath (t ++ r) with
  | none => rfl
  | some out =>
    obtain ⟨ws, y⟩ := out
    obtain ⟨x, hx, hnet⟩ := derives_of_parse hp
    obtain ⟨_, _, _, _, _, _, -, -, -, rfl, -⟩ := derives_capNetPath hnet
    cases hd with
    | @seq _ _ _ w _ _ hslash hrest =>
      rw [derives_ch hslash] at hx
      have hw : w ++ r = _ := (List.cons.inj hx).2
      obtain ⟨rfl, -⟩ | ⟨a, w', rfl, ha⟩ := hrest.first_or
      · have hhead := hr '/'.toUInt8 (by
          rw [List.nil_append] at hw
          rw [hw]
          rfl)
        exact absurd hhead (by decide)
      · rw [(List.cons.inj hw).1] at ha
        cases ha

theorem parse_capHeirpart (hd : Derives capHeirpart t vs)
    (hfits : ∀ h, .str .host h ∈ vs → HostFits h) (hr : Followed ['?'] r) :
    parse capHeirpart (t ++ r) = some (vs, r) := by
  cases hd with
  | left hd =>
    cases hd with
    | left hd =>
      cases hd with
      | left hd =>
        obtain ⟨h, hs, p, ps, u, us, hhost, hport, hpath, rfl, rfl⟩ := derives_capNetPath hd
        have hfit := hfits h List.mem_cons_self
        obtain ⟨hfollow, hfollow'⟩ := followed_port hport hpath hr
        have hcap : parse (readTerm .host host) (h ++ (p ++ (u ++ r))) =
            some ([.str .host h], p ++ (u ++ r)) := by
          simp [readTerm, parse, parse_host hhost hfit hfollow]
        have hnet := parse_capNetPath hcap (exact_capPort p ps _ hport hfollow')
          (exact_pathAbempty.cap u _ r (.cap hpath) (Followed.mono rfl r hr))
        refine parse_alt_left (parse_alt_left (parse_alt_left ?_))
        simpa using hnet
      | right hd =>
        have hpath := exact_pathAbsolute.cap t vs r hd (Followed.mono rfl r hr)
        cases hd with
        | cap hd =>
          exact parse_alt_left (parse_alt_left
            ((parse_alt_right (parse_capNetPath_none hd hr)).trans hpath))
    | right hd =>
      have hpath := exact_pathRootless.cap t vs r hd (Followed.mono rfl r hr)
      obtain ⟨a, u, rfl, ha⟩ := hd.first rfl
      have hnone : parse (.alt capNetPath (readTerm .path pathAbsolute)) (a :: u ++ r) = none := by
        refine parse_none_of_first rfl ?_
        by_contra hfirst
        have hslash : a = '/'.toUInt8 := by
          simpa [capNetPath, pathAbsolute, readTerm, seqs, first, nullable, fslash, ch, sym]
            using hfirst
        rw [hslash] at ha
        cases ha
      exact parse_alt_left ((parse_alt_right hnone).trans hpath)
  | right hd =>
    have hempty := exact_pathEmpty.cap t vs r hd hr
    cases hd with
    | cap hd =>
      cases hd
      refine (parse_alt_right ?_).trans hempty
      exact parse_none_of_followed rfl rfl r hr

/-- The parse of a URI from the parses of what follows its scheme. -/
theorem parse_capAbsoluteURI_of {a w y : List UInt8} {as ts qs : List Node}
    (hscheme : Derives scheme a as) (hhier : parse capHeirpart w = some (ts, y))
    (hquery : parse capQuery y = some (qs, r)) :
    parse capAbsoluteURI (a ++ ':'.toUInt8 :: w) = some (.str .scheme a :: (ts ++ qs), r) := by
  have hfollow : Followed [':'] (':'.toUInt8 :: w) := heads_cons (by simp)
  have hcap := exact_scheme.cap a _ _ (.cap (f := fun text _ => .str .scheme text) hscheme) hfollow
  have hcolon : parse colon (':'.toUInt8 :: w) = some ([], w) := rfl
  exact parse_seq.mpr ⟨_, _, _, parse_seq.mpr ⟨_, _, _,
    parse_seq.mpr ⟨_, _, _, hcap, hcolon, rfl⟩, hhier, rfl⟩, hquery, rfl⟩

theorem followed_query {q : List UInt8} {qs : List Node} (hquery : Derives capQuery q qs) :
    Followed ['?'] q := by
  have hq : Followed ['?'] (q ++ []) :=
    hquery.heads_append (mem_of_first List.mem_cons_self) fun _ => heads_nil
  rwa [List.append_nil] at hq

theorem parse_capAbsoluteURI (hd : Derives capAbsoluteURI s vs)
    (hfits : ∀ h, .str .host h ∈ vs → HostFits h) : parse capAbsoluteURI s = some (vs, []) := by
  obtain ⟨a, as, t, ts, q, qs, hscheme, hhier, hquery, rfl, rfl⟩ := derives_capAbsoluteURI hd
  have hparse := parse_capHeirpart hhier
    (fun h hh => hfits h (List.mem_cons_of_mem _ (List.mem_append_left _ hh)))
    (followed_query hquery)
  have hlast := exact_capQuery q qs [] hquery heads_nil
  rw [List.append_nil] at hlast
  exact parse_capAbsoluteURI_of hscheme hparse hlast

/-- An optional part, marked by a character. -/
theorem opt_part {c : Char} {tag : Tag} {g : Rule}
    (hd : Derives (.rep 0 1 (.seq (ch c) (readTerm tag g))) t vs) :
    ∃ part : Option (List UInt8), t = part.elim [] (c.toUInt8 :: ·) ∧
      vs = (part.map (.str tag)).toList := by
  cases hd with
  | none => exact ⟨none, rfl, rfl⟩
  | copy hd hrest =>
    cases hrest
    cases hd with
    | @seq _ _ _ x _ _ hmark hd =>
      rw [derives_ch hmark, hmark.silent rfl]
      cases hd
      exact ⟨some x, by simp, by simp⟩

theorem not_host_of_opt {c : Char} {tag : Tag} {g : Rule} (htag : tag ≠ .host)
    (hd : Derives (.rep 0 1 (.seq (ch c) (readTerm tag g))) t vs) : .str .host h ∉ vs := by
  obtain ⟨part, -, rfl⟩ := opt_part hd
  cases part with
  | none => simp
  | some text => simp [htag.symm]

theorem hierHost_of_mem (hd : Derives capHeirpart t vs) (hmem : .str .host h ∈ vs) :
    HierHost t h := by
  cases hd with
  | left hd =>
    cases hd with
    | left hd =>
      cases hd with
      | left hd =>
        obtain ⟨h', hs, p, ps, u, us, hhost, hport, hpath, rfl, rfl⟩ := derives_capNetPath hd
        obtain rfl : h = h' := by
          simpa [not_host_of_opt (h := h) (by decide) hport] using hmem
        exact hierHost_of_derives hhost hport hpath
      | right hd =>
        cases hd
        simp at hmem
    | right hd =>
      cases hd
      simp at hmem
  | right hd =>
    cases hd
    simp at hmem

theorem hostPart_of_mem (hd : Derives capAbsoluteURI s vs) (hmem : .str .host h ∈ vs) :
    HostPart s h := by
  obtain ⟨a, as, t, ts, q, qs, hscheme, hhier, hquery, rfl, rfl⟩ := derives_capAbsoluteURI hd
  have hts : .str .host h ∈ ts := by
    simpa [not_host_of_opt (h := h) (by decide) hquery] using hmem
  exact ⟨a, t, q, ⟨as, hscheme⟩, hierHost_of_mem hhier hts, ⟨[], derives_strip hquery⟩, rfl⟩

theorem derives_ch_self (c : Char) : Derives (ch c) [c.toUInt8] [] := .set (by simp)

/-- The parts of a URI with a host, as they are captured. -/
theorem hostPart_parts (hpart : HostPart s h) : ∃ a as hs p ps u us q qs,
    Derives scheme a as ∧ Derives host h hs ∧
      Derives (.rep 0 1 (.seq colon (readTerm .port port))) p ps ∧ Derives pathAbempty u us ∧
      Derives capQuery q qs ∧
      s = a ++ ':'.toUInt8 :: '/'.toUInt8 :: '/'.toUInt8 :: (h ++ (p ++ (u ++ q))) := by
  obtain ⟨a, t, q, ⟨as, hscheme⟩, ⟨p, u, ⟨hs, hhost⟩, ⟨_, hport⟩, ⟨us, hpath⟩, rfl⟩, ⟨_, hquery⟩,
    rfl⟩ := hpart
  obtain ⟨ps, hport⟩ :=
    generates_of_strip (g := .rep 0 1 (.seq colon (readTerm .port port))) hport
  obtain ⟨qs, hquery⟩ := generates_of_strip (g := capQuery) hquery
  exact ⟨a, as, hs, p, ps, u, us, q, qs, hscheme, hhost, hport, hpath, hquery, by simp⟩

/-- The derivation of a URI with an authority. -/
theorem derives_net {a p u q : List UInt8} {as hs ps us qs : List Node}
    (hscheme : Derives scheme a as) (hhost : Derives host h hs)
    (hport : Derives (.rep 0 1 (.seq colon (readTerm .port port))) p ps)
    (hpath : Derives pathAbempty u us) (hquery : Derives capQuery q qs) :
    Derives capAbsoluteURI (a ++ ':'.toUInt8 :: '/'.toUInt8 :: '/'.toUInt8 ::
      (h ++ (p ++ (u ++ q))))
      (.str .scheme a :: ((.str .host h :: (ps ++ [.str .path u])) ++ qs)) := by
  have hnet : Derives capNetPath ('/'.toUInt8 :: '/'.toUInt8 :: (h ++ (p ++ u)))
      (.str .host h :: (ps ++ [.str .path u])) := by
    have hd : Derives capNetPath _ _ :=
      .seq (.seq (.seq (derives_ch_self '/') (derives_ch_self '/'))
      (.seq (.cap hhost) hport)) (.cap hpath)
    simpa using hd
  have hd : Derives capAbsoluteURI _ _ :=
    .seq (.seq (.seq (.cap hscheme) (derives_ch_self ':')) (.left (.left (.left hnet)))) hquery
  simpa using hd

theorem derives_of_hostPart (hpart : HostPart s h) :
    ∃ vs, Derives capAbsoluteURI s vs ∧ .str .host h ∈ vs := by
  obtain ⟨a, as, hs, p, ps, u, us, q, qs, hscheme, hhost, hport, hpath, hquery, rfl⟩ :=
    hostPart_parts hpart
  exact ⟨_, derives_net hscheme hhost hport hpath hquery, by simp⟩

theorem parse_capAbsoluteURI_cut (hpart : HostPart s h) (hcut : ¬ HostFits h) :
    parse capAbsoluteURI s ≠ some (vs, []) := by
  obtain ⟨a, as, hs, p, ps, u, us, q, qs, hscheme, hhost, hport, hpath, hquery, rfl⟩ :=
    hostPart_parts hpart
  obtain ⟨b, z, hrest, hcolon, hslash, hqmark⟩ :=
    parse_host_cut hhost hcut (followed_port hport hpath (followed_query hquery)).1
  obtain ⟨y, hy⟩ : ∃ y, y = b :: (z ++ (p ++ (u ++ q))) := ⟨_, rfl⟩
  rw [← hy] at hrest
  have hcap : ∃ hs, parse (readTerm .host host) (h ++ (p ++ (u ++ q))) = some (hs, y) := by
    simp [readTerm, parse, hrest]
  have hnoport : parse (.rep 0 1 (.seq colon (readTerm .port port))) y = some ([], y) :=
    parse_rep_none (by rw [hy]; exact parse_ch_seq_none hcolon)
  have hnopath : parse pathAbempty y = some ([], y) :=
    parse_rep_none (by rw [hy]; exact parse_ch_seq_none hslash)
  have hnoquery : parse capQuery y = some ([], y) :=
    parse_rep_none (by rw [hy]; exact parse_ch_seq_none hqmark)
  have hcappath : ∃ us, parse (readTerm .path pathAbempty) y = some (us, y) := by
    simp [readTerm, parse, hnopath]
  obtain ⟨hs', hcap⟩ := hcap
  obtain ⟨us', hcappath⟩ := hcappath
  have hhier := parse_alt_left (h := readTerm .path pathEmpty) (parse_alt_left
    (h := readTerm .path pathRootless) (parse_alt_left (h := readTerm .path pathAbsolute)
      (parse_capNetPath hcap hnoport hcappath)))
  have hwhole := parse_capAbsoluteURI_of hscheme hhier hnoquery
  intro hp
  rw [hwhole, hy] at hp
  cases (Prod.mk.inj (Option.some.inj hp)).2

end UriPar

/-- The parser accepts the whole text and captures its host. -/
def AcceptsWhole (s : List UInt8) : Prop :=
  ∃ vs, parse UriPar.capAbsoluteURI s = some (vs, []) ∧ ∀ h, .str .host h ∈ vs ↔ HostPart s h

/-- A text derived from `absolute_URI` is accepted as a whole by
`cap_absolute_URI`, with its whole host, if and only if its host is an IPv4
address or does not begin like one. -/
theorem accepts_whole_iff {s : List UInt8} (hs : Generates UriPar.absoluteURI s) :
    AcceptsWhole s ↔ ∀ h, HostPart s h → HostFits h := by
  constructor
  · rintro ⟨vs, hp, -⟩ h hpart
    by_contra hcut
    exact UriPar.parse_capAbsoluteURI_cut hpart hcut hp
  · intro hfits
    obtain ⟨vs, hd⟩ := generates_strip.mp (UriPar.strip_capAbsoluteURI ▸ hs)
    have hp := UriPar.parse_capAbsoluteURI hd
      fun h hmem => hfits h (UriPar.hostPart_of_mem hd hmem)
    refine ⟨vs, hp, fun h => ⟨UriPar.hostPart_of_mem hd, fun hpart => ?_⟩⟩
    obtain ⟨ws, hd', hmem⟩ := UriPar.derives_of_hostPart hpart
    have hp' := UriPar.parse_capAbsoluteURI hd'
      fun h hmem => hfits h (UriPar.hostPart_of_mem hd' hmem)
    rw [hp] at hp'
    rwa [(Prod.mk.inj (Option.some.inj hp')).1]

theorem generates_of_parse {g : Rule} {t : List UInt8} (hp : ∃ vs, parse g t = some (vs, [])) :
    Generates g t := hp.imp fun _ => derives_of_full

def http : List UInt8 := ['h', 't', 't', 'p'].map Char.toUInt8

def slash : List UInt8 := ['/'].map Char.toUInt8

/-- An IPv4 address. -/
def dotted : List UInt8 := ['1', '.', '2', '.', '3', '.', '4'].map Char.toUInt8

/-- A registered name. -/
def dottedCom : List UInt8 := dotted ++ ['.', 'c', 'o', 'm'].map Char.toUInt8

/-- The URI of a host, with a slash behind it. -/
def uriOf (h : List UInt8) : List UInt8 :=
  http ++ ':'.toUInt8 :: ('/'.toUInt8 :: '/'.toUInt8 :: (h ++ ([] ++ slash)) ++ [])

theorem hostPart_uriOf {h : List UInt8} (hh : Generates UriPar.host h) :
    HostPart (uriOf h) h :=
  ⟨http, _, [], generates_of_parse ⟨[], rfl⟩,
    ⟨[], slash, hh, ⟨[], .none⟩, generates_of_parse ⟨[], rfl⟩, rfl⟩, ⟨[], .none⟩, rfl⟩

/-- The text is derived with the registered name as its host, but the parser
stops behind the address. -/
theorem reg_name_cut : Generates UriPar.absoluteURI (uriOf dottedCom) ∧
    ¬ AcceptsWhole (uriOf dottedCom) := by
  have hname : Generates UriPar.regName dottedCom := generates_of_parse ⟨[], rfl⟩
  have hpart : HostPart (uriOf dottedCom) dottedCom :=
    hostPart_uriOf (hname.imp fun _ hd => .right hd)
  have hcut : ¬ HostFits dottedCom := by
    intro hfits
    obtain ⟨vs, hd⟩ := hfits dotted _ rfl (generates_of_parse ⟨[], rfl⟩)
    exact hd.avoids (b := 'c'.toUInt8) rfl (by decide)
  obtain ⟨vs, hd, -⟩ := UriPar.derives_of_hostPart hpart
  refine ⟨⟨[], derives_strip hd⟩, fun ⟨ws, hp, _⟩ => ?_⟩
  exact UriPar.parse_capAbsoluteURI_cut hpart hcut hp

/-- The URI of the address is accepted. -/
theorem accepts_dotted : AcceptsWhole (uriOf dotted) := by
  have hs : Generates UriPar.absoluteURI (uriOf dotted) := generates_of_parse ⟨[], rfl⟩
  refine (accepts_whole_iff hs).mpr fun h hpart => ?_
  by_contra hcut
  have hp : parse UriPar.capAbsoluteURI (uriOf dotted) =
      some ([.str .scheme http, .str .host dotted, .str .path slash], []) := rfl
  exact UriPar.parse_capAbsoluteURI_cut hpart hcut hp

end Lawd
