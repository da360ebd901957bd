import Lawd.Buffer
import Lawd.Library.Writing
import Lawd.Reqline
import Lawd.UriParts

/-!
# Printing URIs

`law_uri_bprint` and `law_uri_fprint` print the same text. It has `://` behind
every scheme and never a port, so it parses back to the same URI if and only if
there is a host and no port. The buffer needs a byte more than the text has.
-/
namespace Lawd

open Library Library.Peg

section Print

variable {σ : Type*} (printf : List UInt8 → σ → Err × σ)

/-- A component is printed if there is one. -/
def printPart (part : Option (List UInt8)) (format : List UInt8 → List UInt8) (out : σ) : Err × σ :=
  match part with
  | some text => printf (format text) out
  | none => (.ok, out)

/-- The body of `law_uri_fprint` and `law_uri_bprint`, up to the function that prints. -/
def uriPrint (uri : Uri) : σ → Err × σ :=
  andThen .ok (printPart printf uri.scheme (· ++ [':', '/', '/'].map Char.toUInt8)) <|
  andThen .ok (printPart printf uri.host id) <|
  andThen .ok (printPart printf uri.path id) <|
  printPart printf uri.query ('?'.toUInt8 :: ·)

end Print

/-- An output stream of the C library: whether its next writes fail, and the text
that was written. -/
structure File where
  fails : List Bool
  text : List UInt8
  deriving DecidableEq, Repr

/-- `fprintf`, as `SEL_IO_QUIETLY` reports it. -/
def filePrintf (s : List UInt8) (file : File) : Err × File :=
  match file.fails with
  | true :: fails => (.sys, { file with fails := fails })
  | _ => (.ok, ⟨file.fails.tail, file.text ++ s⟩)

/-- `pgc_buf_printf`, which the buffer brings with it. -/
def bufPrintf (B : ByteBuffer) (s : List UInt8) (b : B.Buf) : Err × B.Buf :=
  match B.print b s with
  | some b' => (.ok, b')
  | none => (.oob, b)

/-- `law_uri_fprint`. -/
def uriFprint (uri : Uri) : File → Err × File := uriPrint filePrintf uri

/-- `law_uri_bprint`. -/
def uriBprint (B : ByteBuffer) (uri : Uri) : B.Buf → Err × B.Buf := uriPrint (bufPrintf B) uri

/-- `law_uri_parse`; without a URI, `law_uri_from_ast` has halted. -/
def uriParse (parser : Rule) (oom : Bool) (buffer : List UInt8) :
    Except LangErr (Option Uri × List UInt8) :=
  (langParse parser oom buffer).map fun out => (uriFromAst out.1, out.2)

/-! ### The text -/

/-- What is printed. -/
def Uri.printed (uri : Uri) : List UInt8 :=
  uri.scheme.elim [] (· ++ [':', '/', '/'].map Char.toUInt8) ++
    (uri.host.getD [] ++ (uri.path.getD [] ++ uri.query.elim [] ('?'.toUInt8 :: ·)))

section Print

variable {σ : Type*} {printf : List UInt8 → σ → Err × σ} {text : σ → List UInt8} {room : σ → ℕ}
  {k : ℕ}

theorem emits_printPart (h : ∀ s, Emits .ok text s (printf s)) (part : Option (List UInt8))
    (format : List UInt8 → List UInt8) :
    Emits .ok text (part.elim [] format) (printPart printf part format) := by
  cases part with
  | none => exact emits_skip
  | some s => exact h (format s)

theorem appends_printPart (h : ∀ s, Appends .ok room text k s (printf s))
    (part : Option (List UInt8)) (format : List UInt8 → List UInt8) :
    Appends .ok room text k (part.elim [] format) (printPart printf part format) := by
  cases part with
  | none => exact appends_skip
  | some s => exact h (format s)

@[simp] theorem elim_id (part : Option (List UInt8)) : part.elim [] id = part.getD [] := by
  cases part <;> rfl

theorem emits_uriPrint (h : ∀ s, Emits .ok text s (printf s)) (uri : Uri) :
    Emits .ok text uri.printed (uriPrint printf uri) := by
  have hall := (emits_printPart h uri.scheme (· ++ [':', '/', '/'].map Char.toUInt8)).andThen
    ((emits_printPart h uri.host id).andThen ((emits_printPart h uri.path id).andThen
      (emits_printPart h uri.query ('?'.toUInt8 :: ·))))
  rwa [elim_id, elim_id] at hall

theorem appends_uriPrint (h : ∀ s, Appends .ok room text k s (printf s)) (uri : Uri) :
    Appends .ok room text k uri.printed (uriPrint printf uri) := by
  have hle : ∀ n, k ≤ n + k := Nat.le_add_left k
  have hall := (appends_printPart h uri.scheme (· ++ [':', '/', '/'].map Char.toUInt8)).andThen
    ((appends_printPart h uri.host id).andThen ((appends_printPart h uri.path id).andThen
      (appends_printPart h uri.query ('?'.toUInt8 :: ·)) (hle _)) (hle _)) (hle _)
  rwa [elim_id, elim_id] at hall

end Print

theorem emits_filePrintf (s : List UInt8) : Emits .ok File.text s (filePrintf s) := by
  intro file h
  unfold filePrintf at h ⊢
  split at h
  · cases h
  · rfl

variable {B : ByteBuffer}

/-- The bytes that can still be put into a buffer. -/
def bufRoom (B : ByteBuffer) (b : B.Buf) : ℕ := B.max b - (B.fin b - B.tell b)

theorem appends_bufPrintf (s : List UInt8) :
    Appends .ok (bufRoom B) B.unread 1 s (bufPrintf B s) := by
  intro b h
  have hle := B.fin_le b
  have htell := B.tell_le b
  simp only [bufRoom] at h ⊢
  obtain ⟨b', hprint, happ⟩ := B.print_of_lt b s (by omega)
  simp only [bufPrintf, hprint, BufferOps.unread, happ.max, happ.fin, happ.tell]
  refine ⟨trivial, ?_, by omega⟩
  rw [← happ.fin]
  exact happ.window le_rfl htell

theorem costs_bufPrintf (s : List UInt8) : Costs .ok (bufRoom B) s.length (bufPrintf B s) := by
  intro b h
  have htell := B.tell_le b
  unfold bufPrintf at h ⊢
  cases hprint : B.print b s with
  | none =>
    rw [hprint] at h
    cases h
  | some b' =>
    obtain ⟨hroom, s', hlen, -, happ, -⟩ := B.print_some hprint
    simp only [bufRoom, happ.max, happ.fin, happ.tell]
    omega

/-- What a print leaves is a first part of the text, but for the last byte where
nothing is left. -/
theorem emitsPart_bufPrintf (s : List UInt8) :
    EmitsPart .ok (bufRoom B) B.unread s (bufPrintf B s) := by
  intro b
  have htell := B.tell_le b
  unfold bufPrintf
  cases hprint : B.print b s with
  | none => exact ⟨[], (List.append_nil _).symm, rfl, .inl List.nil_prefix, fun h => by cases h⟩
  | some b' =>
    obtain ⟨hroom, s', hlen, hfirst, happ, hspare⟩ := B.print_some hprint
    have htext : B.unread b' = B.unread b ++ s' := by
      simp only [BufferOps.unread, happ.tell]
      exact happ.window le_rfl htell
    refine ⟨s', htext, ?_, ?_, fun _ => hlen⟩
    · simp only [bufRoom, happ.max, happ.fin, happ.tell]
      omega
    · rcases Nat.lt_or_eq_of_le hroom with hlt | heq
      · exact .inl (hspare hlt ▸ List.prefix_rfl)
      · refine .inr ⟨?_, ?_⟩
        · simp only [bufRoom, happ.max, happ.fin, happ.tell]
          omega
        · have hdrop : s'.dropLast = s.dropLast := by
            rw [List.prefix_iff_eq_take.mp hfirst, List.dropLast_eq_take, List.length_dropLast,
              hlen]
          rw [hdrop]
          exact List.dropLast_prefix s

/-! ### Parsing it back -/

/-- What is printed into the buffer is parsed as the same URI, and is what is
written to a file. -/
def PrintsBack (B : ByteBuffer) (b : B.Buf) (uri : Uri) : Prop :=
  ∃ b', uriBprint B uri b = (.ok, b') ∧
    (∃ rest, uriParse UriPar.capAbsoluteURI false (B.unread b') = .ok (some uri, rest)) ∧
    ∀ file, (uriFprint uri file).1 = .ok →
      (uriFprint uri file).2.text = file.text ++ B.unread b'

namespace UriPar

variable {s t r : List UInt8} {vs : List Node} {uri : Uri}

theorem captures_host (hp : parse capAbsoluteURI s = some (vs, r)) :
    ∀ h, .str .host h ∈ vs → HostFits h := by
  have hother : ∀ {tag : Tag} {g : Rule}, tag ≠ .host →
      Captures (fun node => ∀ h, node = .str .host h → HostFits h) (readTerm tag g) := by
    intro tag g htag s vs r _ h heq
    exact absurd (Node.str.inj heq).1 htag
  have hhost : Captures (fun node => ∀ h, node = .str .host h → HostFits h)
      (readTerm .host host) := by
    intro s vs r hp h heq
    obtain ⟨t, rfl⟩ := parse_suffix hp
    refine hostFits_of_parse hp ?_
    rw [← (Node.str.inj heq).2]
    simp
  have hall : Captures (fun node => ∀ h, node = .str .host h → HostFits h) capAbsoluteURI :=
    ⟨⟨⟨hother (by decide), trivial⟩, ⟨⟨⟨⟨⟨trivial, trivial⟩, hhost, trivial, hother (by decide)⟩,
      hother (by decide)⟩, hother (by decide)⟩, hother (by decide)⟩, hother (by decide)⟩,
      trivial, hother (by decide)⟩
  exact fun h hmem => captures hall hp _ hmem h rfl

/-- A URI with a host is printed without its port, and parsed again as it is printed. -/
theorem parse_printed (hp : parse capAbsoluteURI s = some (vs, r))
    (huri : uriFromAst vs = some uri) (hne : uri.host ≠ none) :
    ∃ vs', parse capAbsoluteURI uri.printed = some (vs', []) ∧
      uriFromAst vs' = some { uri with port := none } := by
  have hfits := captures_host hp
  obtain ⟨t, -, hd⟩ := derives_of_parse hp
  obtain ⟨a, as, w, ts, q, qs, hscheme, hhier, hquery, rfl, rfl⟩ := derives_capAbsoluteURI hd
  obtain ⟨query, rfl, rfl⟩ := opt_part hquery
  obtain ⟨h, hs, p, ps, u, us, hhost, hport, hpath, rfl, rfl⟩ | ⟨rfl, -⟩ := capHeirpart_parts hhier
  · obtain ⟨port, rfl, rfl⟩ := opt_part hport
    rw [uriFromAst_net] at huri
    obtain rfl := Option.some.inj huri
    have hd' := derives_net hscheme hhost .none hpath hquery
    refine ⟨_, ?_, uriFromAst_net a h u none query⟩
    have hparse := parse_capAbsoluteURI hd' fun h' hmem => hfits h' ?_
    · simpa [Uri.printed] using hparse
    · have hsame : h' = h := by cases query <;> simpa using hmem
      simp [hsame]
  · rw [uriFromAst_path] at huri
    obtain rfl := Option.some.inj huri
    exact absurd rfl hne

theorem parse_capHeirpart_slashes (w : List UInt8) :
    ∃ h ts r', parse capHeirpart ('/'.toUInt8 :: '/'.toUInt8 :: w) =
      some (.str .host h :: ts, r') := by
  obtain ⟨⟨hs, x⟩, hhost⟩ : ∃ out, parse host w = some out := by
    obtain ⟨out, hname⟩ : ∃ out, parse regName w = some out := parse_rep_some 127 _ w
    cases hp : parse (alts ipLiteral [ipv4address]) w with
    | none => exact ⟨out, (parse_alt_right hp).trans hname⟩
    | some out => exact ⟨out, parse_alt_left hp⟩
  obtain ⟨⟨ps, y⟩, hport⟩ := parse_rep_some 1 (.seq colon (readTerm .port port)) x
  obtain ⟨⟨us, z⟩, hpath⟩ : ∃ out, parse pathAbempty y = some out := parse_rep_some 127 _ y
  have hnet := parse_capNetPath (parse_cap_some hhost) hport (parse_cap_some hpath)
  exact ⟨_, _, z, parse_alt_left (parse_alt_left (parse_alt_left hnet))⟩

/-- A URI without a host is printed as one with a host. -/
theorem parse_printed_path (hp : parse capAbsoluteURI s = some (vs, r))
    (huri : uriFromAst vs = some uri) (hne : uri.host = none) :
    ∃ a h ts r', parse capAbsoluteURI uri.printed =
      some (.str .scheme a :: .str .host h :: ts, r') := by
  obtain ⟨t, -, hd⟩ := derives_of_parse hp
  obtain ⟨a, as, w, ts, q, qs, hscheme, hhier, hquery, rfl, rfl⟩ := derives_capAbsoluteURI hd
  obtain ⟨query, rfl, rfl⟩ := opt_part hquery
  obtain ⟨h, hs, p, ps, u, us, hhost, hport, hpath, rfl, rfl⟩ | ⟨rfl, -⟩ := capHeirpart_parts hhier
  · obtain ⟨port, rfl, rfl⟩ := opt_part hport
    rw [uriFromAst_net] at huri
    obtain rfl := Option.some.inj huri
    cases hne
  · rw [uriFromAst_path] at huri
    obtain rfl := Option.some.inj huri
    obtain ⟨h, ts, y, hhier'⟩ :=
      parse_capHeirpart_slashes (w ++ query.elim [] ('?'.toUInt8 :: ·))
    obtain ⟨⟨qs', r'⟩, hquery'⟩ : ∃ out, parse capQuery y = some out := parse_rep_some 1 _ y
    have hwhole := parse_capAbsoluteURI_of hscheme hhier' hquery'
    refine ⟨a, h, ts ++ qs', r', ?_⟩
    simpa [Uri.printed] using hwhole

end UriPar

theorem uriParse_ok {parser : Rule} {oom : Bool} {buffer rest : List UInt8} {uri : Uri}
    (h : uriParse parser oom buffer = .ok (some uri, rest)) :
    ∃ vs, parse parser buffer = some (vs, rest) ∧ uriFromAst vs = some uri := by
  obtain ⟨⟨vs, r⟩, hout, heq⟩ := except_map_ok h
  obtain ⟨huri, rfl⟩ := Prod.mk.inj heq
  exact ⟨vs, langParse_ok hout, huri⟩

theorem uriBprint_ok {b : B.Buf} {uri : Uri} (hempty : B.unread b = [])
    (hroom : uri.printed.length < B.max b) :
    ∃ b', uriBprint B uri b = (.ok, b') ∧ B.unread b' = uri.printed := by
  have hused : B.fin b - B.tell b = 0 := by
    rw [← BufferOps.unread_length, hempty]
    rfl
  obtain ⟨hok, htext, -⟩ := appends_uriPrint appends_bufPrintf uri b
    (by rw [bufRoom, hused]; exact hroom)
  rw [hempty, List.nil_append] at htext
  exact ⟨_, Prod.ext hok rfl, htext⟩

variable {s r : List UInt8} {oom : Bool} {uri : Uri} {b : B.Buf}

/-- A URI that comes back has a host and no port. -/
theorem PrintsBack.parts (hback : PrintsBack B b uri)
    (h : uriParse UriPar.capAbsoluteURI oom s = .ok (some uri, r))
    (hempty : B.unread b = []) (hroom : uri.printed.length < B.max b) :
    uri.host ≠ none ∧ uri.port = none := by
  obtain ⟨vs, hp, huri⟩ := uriParse_ok h
  obtain ⟨b', hprint, htext⟩ := uriBprint_ok hempty hroom
  obtain ⟨b₁, hprint₁, ⟨rest, hagain⟩, -⟩ := hback
  rw [hprint] at hprint₁
  obtain rfl := (Prod.mk.inj hprint₁).2
  rw [htext] at hagain
  obtain ⟨vs₁, hp₁, huri₁⟩ := uriParse_ok hagain
  have hhost : uri.host ≠ none := by
    intro hnone
    obtain ⟨a, h, ts, r', hp'⟩ := UriPar.parse_printed_path hp huri hnone
    rw [hp₁] at hp'
    obtain rfl := (Prod.mk.inj (Option.some.inj hp')).1
    have hfold : ts.foldlM uriPart ⟨some a, some h, none, none, none⟩ = some uri := huri₁
    exact uriFold_keeps (P := (·.host ≠ none)) (fun hpart => (uriPart_keeps hpart).2) hfold
      (Option.some_ne_none h) hnone
  refine ⟨hhost, ?_⟩
  obtain ⟨vs₂, hp₂, huri₂⟩ := UriPar.parse_printed hp huri hhost
  rw [hp₁] at hp₂
  rw [(Prod.mk.inj (Option.some.inj hp₂)).1, huri₂] at huri₁
  rw [← Option.some.inj huri₁]

/-- Printing a URI that was parsed and parsing the result gives the same URI if
and only if it has a host and no port. -/
theorem print_parse_iff (h : uriParse UriPar.capAbsoluteURI oom s = .ok (some uri, r))
    (hempty : B.unread b = []) (hroom : uri.printed.length < B.max b) :
    PrintsBack B b uri ↔ uri.host ≠ none ∧ uri.port = none := by
  refine ⟨fun hback => hback.parts h hempty hroom, fun ⟨hhost, hport⟩ => ?_⟩
  obtain ⟨vs, hp, huri⟩ := uriParse_ok h
  obtain ⟨b', hprint, htext⟩ := uriBprint_ok hempty hroom
  obtain ⟨vs₂, hp₂, huri₂⟩ := UriPar.parse_printed hp huri hhost
  have hsame : ({ uri with port := none } : Uri) = uri := by rw [← hport]
  refine ⟨b', hprint, ⟨[], ?_⟩, fun file hok => ?_⟩
  · rw [htext, uriParse, langParse_of_parse hp₂, ← hsame, ← huri₂]
    rfl
  · rw [htext]
    exact emits_uriPrint emits_filePrintf uri file hok

/-- The URI of `http://1.2.3.4/`. -/
def dottedUri : Uri := ⟨some http, some dotted, none, some slash, none⟩

theorem print_parse_dotted : PrintsBack Ring.buffer (Ring.init 64 (by decide)) dottedUri := by
  have h : uriParse UriPar.capAbsoluteURI false (uriOf dotted) = .ok (some dottedUri, []) := rfl
  exact (print_parse_iff h rfl (by decide)).mpr ⟨by decide, rfl⟩

/-- `http://1.2.3.4:80/`. -/
def portText : List UInt8 := dottedUri.printed.dropLast ++ ':'.toUInt8 :: (eighty ++ slash)

/-- The port is not printed, and so not parsed again. -/
theorem print_parse_port : ∃ uri,
    uriParse UriPar.capAbsoluteURI false portText = .ok (some uri, []) ∧
      uri.printed.length ≤ 64 ∧ ¬ PrintsBack Ring.buffer (Ring.init 64 (by decide)) uri := by
  have h : uriParse UriPar.capAbsoluteURI false portText =
      .ok (some { dottedUri with port := some eighty }, []) := rfl
  refine ⟨_, h, by decide, fun hback => ?_⟩
  cases (hback.parts h rfl (by decide)).2

end Lawd
