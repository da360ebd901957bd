import Lawd.HttpServer

/-!
# Request heads in two phases

A head is a request line, header lines and an empty line. Reading it up to the
first line end and then up to the first empty line gives what one parse of the
whole gives, as long as there is a header line: without one, the line end of the
request line and the empty line are one doubled pair, of which the first phase
has taken one half.
-/
namespace Lawd

open Library Library.Peg

/-- The request line without its end. -/
def requestBody : Rule :=
  seqs (readTerm .method Htp.token)
    [Htp.sp, Htp.requestTarget, Htp.sp, readTerm .version Htp.httpVersion]

theorem requestLine_eq : Htp.requestLine = .seq requestBody (pair 0x0D 0x0A) := rfl

theorem requestHead_eq : Htp.requestHead =
    .seq (.seq Htp.requestLine (.rep 0 127 (.seq Htp.parseField (pair 0x0D 0x0A))))
      (pair 0x0D 0x0A) := rfl

theorem headers_eq : Htp.headers =
    .seq (.seq (.seq (.rep 0 1 Htp.parseField)
      (.rep 0 127 (.seq (pair 0x0D 0x0A) Htp.parseField))) (pair 0x0D 0x0A))
      (pair 0x0D 0x0A) := rfl

theorem avoids_requestBody : avoids 0x0D requestBody = true := by decide

theorem avoids_parseField : avoids 0x0D Htp.parseField = true := by decide

theorem parseField_nil : parse Htp.parseField [] = none := by decide

/-! ### What is captured -/

variable {s t r : List UInt8} {vs : List Node}

theorem requestTarget_captures (hp : parse Htp.requestTarget s = some (vs, r)) :
    ∃ form parts, vs = [.lst form parts] ∧ ∀ node ∈ parts, IsUriPart node := by
  have hexp : ∀ {form : Tag} {g : Rule}, Yields IsUriPart g →
      parse (readExp form g) s = some (vs, r) →
      ∃ form parts, vs = [.lst form parts] ∧ ∀ node ∈ parts, IsUriPart node := by
    intro form g hg hparse
    obtain ⟨parts, hparts, rfl⟩ := parse_cap hparse
    exact ⟨form, parts, rfl, fun node hn => yields hg hparts node hn⟩
  rcases parse_alt hp with hp | hp
  · rcases parse_alt hp with hp | hp
    · exact hexp UriPar.yields_capOriginURI hp
    · exact hexp UriPar.yields_capAbsoluteURI hp
  · exact hexp UriPar.yields_capAuthority hp

/-- The method, the target and the version are captured. -/
theorem requestBody_captures (hp : parse requestBody s = some (vs, r)) :
    ∃ method form parts version,
      vs = [.str .method method, .lst form parts, .str .version version] ∧
      ∀ node ∈ parts, IsUriPart node := by
  obtain ⟨vs₁, r₁, vs₂, h₁, hversion, rfl⟩ := parse_seq.mp hp
  obtain ⟨vs₃, r₃, vs₄, h₃, hsp, rfl⟩ := parse_seq.mp h₁
  obtain ⟨vs₅, r₅, vs₆, h₅, htarget, rfl⟩ := parse_seq.mp h₃
  obtain ⟨vs₇, r₇, vs₈, hmethod, hsp', rfl⟩ := parse_seq.mp h₅
  obtain ⟨_, -, rfl⟩ := parse_cap hmethod
  obtain ⟨_, -, rfl⟩ := parse_cap hversion
  obtain ⟨form, parts, rfl, hparts⟩ := requestTarget_captures htarget
  obtain rfl := silent_nil (g := Htp.sp) rfl hsp
  obtain rfl := silent_nil (g := Htp.sp) rfl hsp'
  exact ⟨_, form, parts, _, rfl, hparts⟩

/-- The nodes of header fields. -/
def IsField (node : Node) : Prop :=
  ∃ name value, node = .lst .field [.str .fieldName name, .str .fieldValue value]

theorem parseField_captures (hp : parse Htp.parseField s = some (vs, r)) :
    ∀ node ∈ vs, IsField node := by
  obtain ⟨items, hitems, rfl⟩ := parse_cap hp
  obtain ⟨vs₁, r₁, vs₂, h₁, hows, rfl⟩ := parse_seq.mp hitems
  obtain ⟨vs₃, r₃, vs₄, h₃, hvalue, rfl⟩ := parse_seq.mp h₁
  obtain ⟨vs₅, r₅, vs₆, h₅, hows', rfl⟩ := parse_seq.mp h₃
  obtain ⟨vs₇, r₇, vs₈, hname, hcolon, rfl⟩ := parse_seq.mp h₅
  obtain ⟨_, -, rfl⟩ := parse_cap hname
  obtain ⟨_, -, rfl⟩ := parse_cap hvalue
  obtain rfl := silent_nil (g := Htp.ows) rfl hows
  obtain rfl := silent_nil (g := Htp.ows) rfl hows'
  obtain rfl := silent_nil (g := ch ':') rfl hcolon
  intro node hnode
  rw [List.mem_singleton.mp hnode]
  exact ⟨_, _, rfl⟩

theorem hthFields_some (h : ∀ node ∈ vs, IsField node) : ∃ fields, hthFields vs = some fields := by
  induction vs with
  | nil => exact ⟨[], rfl⟩
  | cons node vs ih =>
    obtain ⟨name, value, rfl⟩ := h node (by simp)
    obtain ⟨fields, hfields⟩ := ih fun n hn => h n (by simp [hn])
    refine ⟨(name, value) :: fields, ?_⟩
    rw [hthFields] at hfields ⊢
    rw [List.mapM_cons, hfields]
    rfl

/-! ### The two grammars -/

/-- The parts of a head that one parse accepts: the request line, and lines. -/
structure HeadParts (s : List UInt8) (nodes : List Node) (line : List UInt8 × List Node)
    (ls : List (List UInt8 × List Node)) : Prop where
  text : s = line.1 ++ 0x0D :: 0x0A :: (ended 0x0D 0x0A ls ++ [0x0D, 0x0A])
  nodes : nodes = line.2 ++ captured ls
  line : IsLine 0x0D requestBody line
  lines : ∀ l ∈ ls, IsLine 0x0D Htp.parseField l
  length : ls.length ≤ 127

theorem headParts_of_parse {nodes : List Node} (hp : parse Htp.requestHead s = some (nodes, [])) :
    ∃ line ls, HeadParts s nodes line ls := by
  rw [requestHead_eq, requestLine_eq] at hp
  obtain ⟨vs₁, r₁, vs₂, h₁, hblank, rfl⟩ := parse_seq.mp hp
  obtain ⟨rfl, rfl⟩ := parse_pair.mp hblank
  obtain ⟨vs₃, r₃, vs₄, hline, hlines, rfl⟩ := parse_seq.mp h₁
  obtain ⟨k, hgreedy, -⟩ := parse_rep hlines
  obtain ⟨line, rfl, hisline⟩ := isLine_of_parse_pair avoids_requestBody hline
  obtain ⟨ls, hlen, rfl, rfl, hls⟩ := lines_of_greedy avoids_parseField hgreedy
  exact ⟨(line, vs₃), ls, rfl, List.append_nil _, hisline, hls, hlen⟩

variable {nodes : List Node} {line l : List UInt8 × List Node}
  {ls : List (List UInt8 × List Node)}

theorem parse_requestLine (h : IsLine 0x0D requestBody line) :
    parse Htp.requestLine (line.1 ++ [0x0D, 0x0A]) = some (line.2, []) := by
  rw [requestLine_eq]
  refine parse_seq.mpr ⟨line.2, [0x0D, 0x0A], [], h.parse_append avoids_requestBody _,
    parse_pair.mpr ⟨rfl, rfl⟩, (List.append_nil _).symm⟩

/-- Lines with an end each and an empty line, where the other grammar has the
first line and the others with an end in front of them. -/
theorem parse_headers (hl : IsLine 0x0D Htp.parseField l)
    (hls : ∀ l ∈ ls, IsLine 0x0D Htp.parseField l) (hlen : ls.length ≤ 127) :
    parse Htp.headers (ended 0x0D 0x0A (l :: ls) ++ [0x0D, 0x0A]) =
      some (captured (l :: ls), []) := by
  rw [headers_eq, ended_eq_begun]
  obtain ⟨u, hu⟩ : ∃ u, begun 0x0D 0x0A ls ++ [0x0D, 0x0A, 0x0D, 0x0A] = 0x0D :: u := by
    cases ls with
    | nil => exact ⟨_, rfl⟩
    | cons l' ls => exact ⟨_, begun_cons _⟩
  have hfirst : parse (.rep 0 1 Htp.parseField)
      (l.1 ++ (begun 0x0D 0x0A ls ++ [0x0D, 0x0A, 0x0D, 0x0A])) =
      some (l.2, begun 0x0D 0x0A ls ++ [0x0D, 0x0A, 0x0D, 0x0A]) := by
    have hone := hl.parse_append avoids_parseField u
    rw [← hu] at hone
    simp only [parse, greedy, hone, List.append_nil, Nat.zero_le, if_true]
  have hrest : parse (.rep 0 127 (.seq (pair 0x0D 0x0A) Htp.parseField))
      (begun 0x0D 0x0A ls ++ [0x0D, 0x0A, 0x0D, 0x0A]) =
      some (captured ls, [0x0D, 0x0A, 0x0D, 0x0A]) := by
    have hgreedy : greedy (parse (.seq (pair 0x0D 0x0A) Htp.parseField)) 127
        (begun 0x0D 0x0A ls ++ [0x0D, 0x0A, 0x0D, 0x0A]) =
        (captured ls, [0x0D, 0x0A, 0x0D, 0x0A], ls.length) :=
      greedy_of_lines avoids_parseField parseField_nil hls hlen [0x0A]
    rw [parse, hgreedy]
    simp
  refine parse_seq.mpr ⟨captured (l :: ls), [0x0D, 0x0A], [], ?_, parse_pair.mpr ⟨rfl, rfl⟩,
    (List.append_nil _).symm⟩
  refine parse_seq.mpr ⟨captured (l :: ls), [0x0D, 0x0A, 0x0D, 0x0A], [], ?_,
    parse_pair.mpr ⟨rfl, rfl⟩, (List.append_nil _).symm⟩
  exact parse_seq.mpr ⟨l.2, _, captured ls, hfirst, hrest, rfl⟩

/-! ### The two phases -/

/-- More follows the request line than the empty line. -/
def HasHeaderLine (s : List UInt8) : Prop :=
  ∃ i, FirstAt [0x0D, 0x0A] s 0 i ∧ i + 4 < s.length

/-- Called until they no longer ask to wait, both readers succeed, the second at
the offset the first one left, consume `s`, and yield the given head. -/
def TwoPhase {B : ByteBuffer} (c : Htconn B) (base : ℕ) (s : List UInt8)
    (head : HtsReqline × List (List UInt8 × List UInt8)) : Prop :=
  ∃ c₁ list c₂,
    Settles (htsReadReqline base false) readAgain c ((some .ok, some head.1), c₁) ∧
    Settles (htsReadHeaders (B.tell c₁.input) false) readAgain c₁ ((some .ok, list), c₂) ∧
    B.tell c₂.input = base + s.length ∧ hthFields list = some head.2

theorem HeadParts.length_eq (h : HeadParts s nodes line ls) :
    s.length = line.1.length + 2 + ((ended 0x0D 0x0A ls).length + 2) := by
  rw [h.text]
  simp only [List.length_append, List.length_cons, List.length_nil]
  omega

theorem HeadParts.first_end (h : HeadParts s nodes line ls) (extra : List UInt8) :
    FirstAt [0x0D, 0x0A] (s ++ extra) 0 line.1.length := by
  rw [h.text, List.append_assoc]
  exact FirstAt.behind h.line.clean _

theorem HeadParts.hasHeaderLine_iff (h : HeadParts s nodes line ls) :
    HasHeaderLine s ↔ ls ≠ [] := by
  have hfirst := h.first_end []
  rw [List.append_nil] at hfirst
  have hlen := h.length_eq
  constructor
  · rintro ⟨i, hi, hlt⟩ rfl
    obtain rfl := hi.unique hfirst
    simp only [ended, List.flatMap_nil, List.length_nil] at hlen
    omega
  · intro hne
    obtain ⟨l, ls', rfl⟩ := List.exists_cons_of_ne_nil hne
    refine ⟨_, hfirst, ?_⟩
    simp only [ended, List.flatMap_cons, List.length_append, List.length_cons,
      List.length_nil] at hlen
    omega

theorem HeadParts.reqline (h : HeadParts s nodes line ls) :
    ∃ reqline, reqlineFromAst line.2 = some reqline ∧ reqlineFromAst nodes = some reqline ∧
      nodes.drop 3 = captured ls := by
  obtain ⟨method, form, parts, version, hline, hparts⟩ := requestBody_captures h.line.parse
  obtain ⟨uri, huri⟩ := uriFromAst_some hparts
  refine ⟨⟨method, uri, version⟩, ?_, ?_, ?_⟩
  · rw [hline]
    simp only [reqlineFromAst, huri, Option.map_some]
  · rw [h.nodes, hline]
    simp only [List.cons_append, reqlineFromAst, huri, Option.map_some]
  · rw [h.nodes, hline]
    rfl

theorem HeadParts.fields (h : HeadParts s nodes line ls) :
    ∃ fields, hthFields (captured ls) = some fields := by
  refine hthFields_some fun node hnode => ?_
  obtain ⟨l, hl, hmem⟩ := List.mem_flatMap.mp hnode
  exact parseField_captures (h.lines l hl).parse node hmem

theorem headParts_of_readHead {head : HtsReqline × List (List UInt8 × List UInt8)}
    (hread : readHead s = some head) : ∃ nodes line ls, HeadParts s nodes line ls ∧
      reqlineFromAst line.2 = some head.1 ∧ hthFields (captured ls) = some head.2 := by
  obtain ⟨nodes, haccept⟩ : ∃ nodes, parse Htp.requestHead s = some (nodes, []) := by
    unfold readHead at hread
    split at hread
    · next nodes hp => exact ⟨nodes, hp⟩
    · cases hread
  obtain ⟨line, ls, hparts⟩ := headParts_of_parse haccept
  obtain ⟨reqline, hline, hnodes, hdrop⟩ := hparts.reqline
  obtain ⟨fields, hfields⟩ := hparts.fields
  rw [readHead, haccept] at hread
  simp only [hnodes, hdrop, hfields] at hread
  obtain rfl := Option.some.inj hread
  exact ⟨nodes, line, ls, hparts, hline, hfields⟩

@[simp] theorem readAgain_reqlineResult (result : Option Err × List Node) :
    readAgain (reqlineResult result) = readAgain result := by
  obtain ⟨e, list⟩ := result
  rcases e with _ | e
  · rfl
  · cases e with
    | ok =>
      simp only [reqlineResult]
      split <;> rfl
    | _ => rfl

variable {B : ByteBuffer} {c : Htconn B} {base : ℕ} {extra : List UInt8}

theorem Htconn.stream_drop {n : ℕ} (hn : base + n ≤ B.fin c.input) :
    c.stream (base + n) = (c.stream base).drop n := by
  rw [Htconn.stream, Htconn.stream, List.drop_append_of_le_length, BufferOps.window_drop]
  rw [BufferOps.window_length]
  omega

/-- The calls read the text in front of the first line end, and parse it. -/
theorem read_reqline_text {text rest : List UInt8} (hclean : 0x0D ∉ text)
    (htell : B.tell c.input = base) (hstream : c.stream base = text ++ 0x0D :: 0x0A :: rest)
    (hs : Streams c.security c.socket.recv) (hfit : text.length + 2 ≤ B.max c.input) :
    ∃ c₁, Settles (htsReadReqline base false) readAgain c
        (reqlineResult (parsed Htp.requestLine (text ++ [0x0D, 0x0A])), c₁) ∧
      B.max c₁.input = B.max c.input ∧ Streams c₁.security c₁.socket.recv ∧
      ((parsed Htp.requestLine (text ++ [0x0D, 0x0A])).1 = some .ok →
        B.tell c₁.input = base + (text.length + 2) ∧ c₁.stream (B.tell c₁.input) = rest) := by
  have hstart := scanning_start (d := [0x0D, 0x0A]) htell hs
  obtain ⟨e, p, result, c₁, hsettles, hsettled⟩ := htsReadScanParse_settles Htp.requestLine false
    hstart (by simp) (by simp; omega)
  have hfirst : FirstAt [0x0D, 0x0A] (c.stream base) 0 text.length := by
    rw [hstream]
    exact FirstAt.behind hclean rest
  obtain ⟨rfl, hp⟩ := hsettled.shot.unique (.ok _ hfirst (by simpa using hfit))
  obtain rfl := hp rfl
  obtain ⟨hresult, hoffset⟩ := hsettled.found rfl
  have hsplit : c.stream base = (text ++ [0x0D, 0x0A]) ++ rest := by
    rw [hstream]
    simp
  have hcount : text.length + [(0x0D : UInt8), 0x0A].length =
      (text ++ [0x0D, 0x0A]).length := by simp
  rw [hsplit, hcount, List.take_left, parsedWith_false] at hresult
  subst hresult
  refine ⟨c₁, hsettles.map readAgain_reqlineResult, hsettled.max, hsettled.streams, fun hok => ?_⟩
  have htell₁ := hoffset hok
  refine ⟨htell₁, ?_⟩
  have hle := B.tell_le c₁.input
  rw [htell₁] at hle ⊢
  rw [Htconn.stream_drop hle, hsettled.stream, hsplit, hcount, List.drop_left]

/-- The first phase reads the request line. -/
theorem read_reqline_settles (h : HeadParts s nodes line ls) (htell : B.tell c.input = base)
    (hstream : c.stream base = s ++ extra) (hs : Streams c.security c.socket.recv)
    (hfit : s.length ≤ B.max c.input) {reqline : HtsReqline}
    (hline : reqlineFromAst line.2 = some reqline) :
    ∃ c₁, Settles (htsReadReqline base false) readAgain c ((some .ok, some reqline), c₁) ∧
      B.tell c₁.input = base + (line.1.length + 2) ∧
      c₁.stream (B.tell c₁.input) = ended 0x0D 0x0A ls ++ 0x0D :: 0x0A :: extra ∧
      B.max c₁.input = B.max c.input ∧ Streams c₁.security c₁.socket.recv := by
  have hlen := h.length_eq
  have hline₁ : c.stream base =
      line.1 ++ 0x0D :: 0x0A :: (ended 0x0D 0x0A ls ++ 0x0D :: 0x0A :: extra) := by
    rw [hstream, h.text]
    simp
  obtain ⟨c₁, hsettles, hmax, hs₁, hok⟩ :=
    read_reqline_text h.line.clean htell hline₁ hs (by omega)
  have hparsed : parsed Htp.requestLine (line.1 ++ [0x0D, 0x0A]) = (some .ok, line.2) := by
    rw [parsed, parse_requestLine h.line]
  rw [hparsed] at hsettles hok
  simp only [reqlineResult, hline] at hsettles
  exact ⟨c₁, hsettles, (hok rfl).1, (hok rfl).2, hmax, hs₁⟩

/-- The second phase reads the header lines, if there are any. -/
theorem read_headers_settles (hl : IsLine 0x0D Htp.parseField l)
    (hls : ∀ l ∈ ls, IsLine 0x0D Htp.parseField l) (hlen : ls.length ≤ 127)
    (hstream : c.stream (B.tell c.input) =
      ended 0x0D 0x0A (l :: ls) ++ 0x0D :: 0x0A :: extra)
    (hs : Streams c.security c.socket.recv)
    (hfit : (ended 0x0D 0x0A (l :: ls)).length + 2 ≤ B.max c.input) :
    ∃ c₁, Settles (htsReadHeaders (B.tell c.input) false) readAgain c
        ((some .ok, captured (l :: ls)), c₁) ∧
      B.tell c₁.input = B.tell c.input + ((ended 0x0D 0x0A (l :: ls)).length + 2) := by
  have hlong : 2 ≤ (ended 0x0D 0x0A (l :: ls)).length := by
    simp only [ended, List.flatMap_cons, List.length_append, List.length_cons, List.length_nil]
    omega
  have hne : ∀ m ∈ ls, m.1 ≠ [] := by
    intro m hm hnil
    have hparse := (hls m hm).parse
    rw [hnil, parseField_nil] at hparse
    cases hparse
  have hcr : (0x0A : UInt8) ≠ 0x0D := by decide
  have hfirst := first_blank hcr hl hls hne extra
  have hstart := scanning_start (d := [0x0D, 0x0A, 0x0D, 0x0A]) (c := c) rfl hs
  obtain ⟨e, p, result, c₁, hsettles, hsettled⟩ := htsReadScanParse_settles Htp.headers false
    hstart (by simp) (by simp; omega)
  have hshot := hsettled.shot
  rw [hstream] at hshot
  obtain ⟨rfl, hp⟩ := hshot.unique (.ok _ hfirst (by simp; omega))
  obtain rfl := hp rfl
  obtain ⟨hresult, hoffset⟩ := hsettled.found rfl
  have hcount : (ended 0x0D 0x0A (l :: ls)).length - 2 +
      [(0x0D : UInt8), 0x0A, 0x0D, 0x0A].length =
      (ended 0x0D 0x0A (l :: ls) ++ [0x0D, 0x0A]).length := by
    simp only [List.length_append, List.length_cons, List.length_nil]
    omega
  have hsplit : ended 0x0D 0x0A (l :: ls) ++ 0x0D :: 0x0A :: extra =
      (ended 0x0D 0x0A (l :: ls) ++ [0x0D, 0x0A]) ++ extra := by simp
  rw [hstream, hsplit, hcount, List.take_left, parsedWith_false, parsed,
    parse_headers hl hls hlen] at hresult
  subst hresult
  refine ⟨c₁, hsettles, ?_⟩
  rw [hoffset rfl, hcount, List.length_append]
  rfl

/-- Whatever the second phase reads ends with four bytes that it has scanned. -/
theorem read_headers_long {list : List Node} {c₁ : Htconn B}
    (hs : Streams c.security c.socket.recv) (hmax : 4 ≤ B.max c.input)
    (h : Settles (htsReadHeaders (B.tell c.input) false) readAgain c ((some .ok, list), c₁)) :
    B.tell c.input + 4 ≤ B.tell c₁.input := by
  have hstart := scanning_start (d := [0x0D, 0x0A, 0x0D, 0x0A]) (c := c) rfl hs
  obtain ⟨e, p, result, c₂, hsettles, hsettled⟩ := htsReadScanParse_settles Htp.headers false
    hstart (by simp) (by simpa using hmax)
  obtain ⟨rfl, rfl⟩ := Prod.mk.inj (hsettles.unique h)
  have hok : e = .ok := by
    by_contra hne
    exact hne (Option.some.inj (Prod.mk.inj (hsettled.failed hne)).1).symm
  subst hok
  rw [(hsettled.found rfl).2 rfl]
  cases hsettled.shot with
  | ok i _ _ =>
    simp only [List.length_cons, List.length_nil]
    omega

/-- A head that is read in two phases has a header line: without one, the second
phase reads past its end. -/
theorem hasHeaderLine_of_twoPhase (haccept : parse Htp.requestHead s = some (nodes, []))
    (htell : B.tell c.input = base) (hstream : c.stream base = s ++ extra)
    (hs : Streams c.security c.socket.recv) (hfit : s.length ≤ B.max c.input)
    {head : HtsReqline × List (List UInt8 × List UInt8)} (h : TwoPhase c base s head) :
    HasHeaderLine s := by
  obtain ⟨line, ls, hparts⟩ := headParts_of_parse haccept
  obtain ⟨reqline, hline, -, -⟩ := hparts.reqline
  obtain ⟨c₁, hsettles₁, htell₁, -, hmax₁, hs₁⟩ :=
    read_reqline_settles hparts htell hstream hs hfit hline
  obtain ⟨c₁', list, c₂, hfirst, hsecond, hend, -⟩ := h
  obtain ⟨-, rfl⟩ := Prod.mk.inj (hfirst.unique hsettles₁)
  have hlen := hparts.length_eq
  have hlong := read_headers_long hs₁ (by rw [hmax₁]; omega) hsecond
  rw [hparts.hasHeaderLine_iff]
  rintro rfl
  simp only [ended, List.flatMap_nil, List.length_nil] at hlen
  omega

/-- A head with a header line is read in two phases as one parse reads it. -/
theorem twoPhase_of_hasHeaderLine (haccept : parse Htp.requestHead s = some (nodes, []))
    (htell : B.tell c.input = base) (hstream : c.stream base = s ++ extra)
    (hs : Streams c.security c.socket.recv) (hfit : s.length ≤ B.max c.input)
    (h : HasHeaderLine s) : ∃ head, readHead s = some head ∧ TwoPhase c base s head := by
  obtain ⟨line, ls, hparts⟩ := headParts_of_parse haccept
  obtain ⟨reqline, hline, hnodes, hdrop⟩ := hparts.reqline
  obtain ⟨c₁, hsettles₁, htell₁, hstream₁, hmax₁, hs₁⟩ :=
    read_reqline_settles hparts htell hstream hs hfit hline
  obtain ⟨l, ls', rfl⟩ := List.exists_cons_of_ne_nil (hparts.hasHeaderLine_iff.mp h)
  obtain ⟨fields, hfields⟩ := hparts.fields
  have hlen := hparts.length_eq
  have hcount := hparts.length
  rw [List.length_cons] at hcount
  obtain ⟨c₂, hsettles₂, htell₂⟩ := read_headers_settles (hparts.lines l (by simp))
    (fun m hm => hparts.lines m (by simp [hm])) (by omega) hstream₁ hs₁
    (by rw [hmax₁]; omega)
  refine ⟨(reqline, fields), ?_, c₁, captured (l :: ls'), c₂, hsettles₁, hsettles₂, ?_, hfields⟩
  · rw [readHead, haccept]
    simp only [hnodes, hdrop, hfields]
  · rw [htell₂, htell₁, hlen]
    omega

/-- For every head that one parse accepts, reading it in two phases agrees with
that parse if and only if it has a header line. -/
theorem read_head_two_phase_iff (B : ByteBuffer) (c : Htconn B) (base : ℕ)
    (s extra : List UInt8) (nodes : List Node)
    (haccept : parse Htp.requestHead s = some (nodes, []))
    (htell : B.tell c.input = base) (hstream : c.stream base = s ++ extra)
    (hs : Streams c.security c.socket.recv) (hfit : s.length ≤ B.max c.input) :
    (∃ head, readHead s = some head ∧ TwoPhase c base s head) ↔ HasHeaderLine s :=
  ⟨fun ⟨_, _, h⟩ => hasHeaderLine_of_twoPhase haccept htell hstream hs hfit h,
    twoPhase_of_hasHeaderLine haccept htell hstream hs hfit⟩

/-- A connection that delivers `G` and the given bytes to a ring of 32. -/
def headConn (s : List UInt8) : Htconn Ring.buffer where
  security := .unsecured
  input := Ring.init 32 (by decide)
  output := Ring.init 32 (by decide)
  socket := ⟨[.data 71 s], [], []⟩

/-- `ET / HTTP/1.1`. -/
def getLine : List UInt8 := [69, 84, 32, 47, 32, 72, 84, 84, 80, 47, 49, 46, 49]

/-- The end of a line, `A: b`, and the empty line. -/
def oneField : List UInt8 := [0x0D, 0x0A, 65, 58, 32, 98, 0x0D, 0x0A, 0x0D, 0x0A]

theorem read_head_two_phase_field :
    ∃ head, readHead (71 :: getLine ++ oneField) = some head ∧
      TwoPhase (headConn (getLine ++ oneField)) 0 (71 :: getLine ++ oneField) head := by
  refine (read_head_two_phase_iff Ring.buffer _ 0 _ [] _ rfl rfl rfl (by decide) (by decide)).mpr
    ⟨14, ?_, by decide⟩
  have hclean : (0x0D : UInt8) ∉ 71 :: getLine := by decide
  exact FirstAt.behind hclean [65, 58, 32, 98, 0x0D, 0x0A, 0x0D, 0x0A]

/-- The end of a line, and the empty line. -/
def noField : List UInt8 := [0x0D, 0x0A, 0x0D, 0x0A]

/-- The shortest head is accepted and fits, and the two phases do not read it. -/
theorem read_head_two_phase_bare :
    (∃ nodes, parse Htp.requestHead (71 :: getLine ++ noField) = some (nodes, [])) ∧
      (headConn (getLine ++ noField)).stream 0 = 71 :: getLine ++ noField ∧
      (71 :: getLine ++ noField).length ≤ 32 ∧
      ¬ ∃ head, readHead (71 :: getLine ++ noField) = some head ∧
        TwoPhase (headConn (getLine ++ noField)) 0 (71 :: getLine ++ noField) head := by
  refine ⟨⟨_, rfl⟩, rfl, by decide, ?_⟩
  rintro ⟨head, -, h⟩
  obtain ⟨i, hi, hlt⟩ := hasHeaderLine_of_twoPhase rfl rfl
    (List.append_nil _).symm (by decide) (by decide) h
  have hclean : (0x0D : UInt8) ∉ 71 :: getLine := by decide
  obtain rfl := hi.unique (FirstAt.behind hclean [0x0D, 0x0A])
  exact absurd hlt (by decide)

end Lawd
