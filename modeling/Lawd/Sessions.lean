import Lawd.ReadHead

/-!
# Reading one head after another

The reads of a connection begin each where the one before has left the offset,
and go on as long as they succeed. What they give is a function of the stream,
of the capacity of the buffer and of where the parser runs out of memory: how
the stream is cut into arrivals, and what of it the buffer holds at the start of
a read, do not matter. So heads that follow each other on one connection are each
read as if they came alone.
-/
namespace Lawd

open Library Library.Peg

/-- The two reads of a request head. -/
inductive HeadCall where
  | reqline
  | headers
  deriving DecidableEq, Repr

/-- What a read that succeeds yields. -/
inductive HeadPart where
  | reqline (reqline : HtsReqline)
  | headers (list : List Node)
  deriving Repr

namespace HeadCall

/-- The delimiter that is scanned for. -/
def delim : HeadCall → List UInt8
  | reqline => [0x0D, 0x0A]
  | headers => [0x0D, 0x0A, 0x0D, 0x0A]

/-- The rule that the text up to the delimiter's end is parsed with. -/
def rule : HeadCall → Rule
  | reqline => Htp.requestLine
  | headers => Htp.headers

/-- What is made of the result of the parse. -/
def result : HeadCall → Option Err × List Node → Option Err × Option HeadPart
  | reqline, r => ((reqlineResult r).1, (reqlineResult r).2.map .reqline)
  | headers, r => (r.1, if r.1 = some .ok then some (.headers r.2) else none)

/-- `law_hts_read_reqline` or `law_hts_read_headers`, told whether the parser runs
out of memory. -/
def call {B : ByteBuffer} (k : HeadCall) (base : ℕ) (oom : Bool) (c : Htconn B) :
    (Option Err × Option HeadPart) × Htconn B :=
  match k with
  | reqline =>
    let (r, c) := htsReadReqline base oom c
    ((r.1, r.2.map .reqline), c)
  | headers =>
    let (r, c) := htsReadHeaders base oom c
    ((r.1, if r.1 = some .ok then some (.headers r.2) else none), c)

/-- What a read gives on a stream of which the buffer holds at most `cap` bytes,
and how many bytes it consumes. -/
def outcome (k : HeadCall) (oom : Bool) (cap : ℕ) (w : List UInt8) :
    (Option Err × Option HeadPart) × ℕ :=
  if cap < k.delim.length then ((some .oob, none), 0)
  else
    match search k.delim w with
    | some i =>
      if i + k.delim.length ≤ cap then
        (k.result (parsedWith oom k.rule (w.take (i + k.delim.length))), i + k.delim.length)
      else ((some .oob, none), 0)
    | none => if cap ≤ w.length then ((some .oob, none), 0) else ((some .eof, none), 0)

variable {B : ByteBuffer} {k : HeadCall} {oom : Bool} {cap : ℕ} {w : List UInt8} {c : Htconn B}

theorem delim_ne (k : HeadCall) : k.delim ≠ [] := by cases k <;> simp [delim]

theorem call_eq (k : HeadCall) (base : ℕ) (oom : Bool) (c : Htconn B) :
    k.call base oom c = (k.result (htsReadScanParse base k.delim k.rule oom c).1,
      (htsReadScanParse base k.delim k.rule oom c).2) := by
  cases k <;> rfl

@[simp] theorem readAgain_result (k : HeadCall) (r : Option Err × List Node) :
    readAgain (k.result r) = readAgain r := by
  cases k with
  | reqline => exact readAgain_reqlineResult r
  | headers => rfl

theorem result_of_ne {e : Err} (k : HeadCall) (he : e ≠ .ok) (list : List Node) :
    k.result (some e, list) = (some e, none) := by
  have hne : (some e : Option Err) ≠ some .ok := fun h => he (Option.some.inj h)
  cases k with
  | reqline => cases e <;> first | rfl | exact absurd rfl he
  | headers => exact Prod.ext rfl (if_neg hne)

theorem result_ok (k : HeadCall) {r : Option Err × List Node}
    (h : (k.result r).1 = some .ok) : r.1 = some .ok := by
  obtain ⟨_ | e, list⟩ := r
  · cases k <;> cases h
  · by_contra hne
    rw [k.result_of_ne (fun he => hne (congrArg some he))] at h
    exact hne h

/-- One scan of the stream, and the parse behind it. -/
theorem outcome_of_shot (oom : Bool) {e : Err} {p : ℕ} (hcap : k.delim.length ≤ cap)
    (h : OneShot cap k.delim w 0 e p) :
    (e ≠ .ok → k.outcome oom cap w = ((some e, none), 0)) ∧
      (e = .ok → k.outcome oom cap w = (k.result (parsedWith oom k.rule (w.take p)), p)) := by
  unfold outcome
  rw [if_neg (Nat.not_lt.mpr hcap)]
  cases hs : search k.delim w with
  | some i =>
    have hi := search_some hs
    have hlen := hi.occurs.add_length_le k.delim_ne
    by_cases hfit : i + k.delim.length ≤ cap
    · obtain ⟨rfl, hp⟩ := h.unique (.ok i hi hfit)
      obtain rfl := hp rfl
      exact ⟨fun hne => absurd rfl hne, fun _ => if_pos hfit⟩
    · obtain ⟨rfl, -⟩ := h.unique (.oob p (fun j hj => by rw [← hi.unique hj]; omega) (by omega))
      exact ⟨fun _ => if_neg hfit, fun hno => by cases hno⟩
  | none =>
    have hnone : ∀ i, FirstAt k.delim w 0 i → cap < i + k.delim.length := fun i hi =>
      absurd hi.occurs (search_none hs i)
    by_cases hlong : cap ≤ w.length
    · obtain ⟨rfl, -⟩ := h.unique (.oob p hnone hlong)
      exact ⟨fun _ => if_pos hlong, fun hno => by cases hno⟩
    · obtain ⟨rfl, -⟩ := h.unique (.eof p hnone (not_le.mp hlong))
      exact ⟨fun _ => if_neg hlong, fun hno => by cases hno⟩

/-- However the stream arrives, a read comes to its outcome, and leaves the rest
of the stream. -/
theorem settles (k : HeadCall) (oom : Bool) (hs : Streams c.security c.socket.recv) : ∃ c₁,
    Settles (k.call (B.tell c.input) oom) readAgain c
      ((k.outcome oom (B.max c.input) (c.stream (B.tell c.input))).1, c₁) ∧
    ((k.outcome oom (B.max c.input) (c.stream (B.tell c.input))).1.1 = some .ok →
      B.max c₁.input = B.max c.input ∧ Streams c₁.security c₁.socket.recv ∧
      c₁.stream (B.tell c₁.input) = (c.stream (B.tell c.input)).drop
        (k.outcome oom (B.max c.input) (c.stream (B.tell c.input))).2) := by
  have hcall : k.call (B.tell c.input) oom = fun u : Htconn B =>
      (k.result (htsReadScanParse (B.tell c.input) k.delim k.rule oom u).1,
        (htsReadScanParse (B.tell c.input) k.delim k.rule oom u).2) := funext (k.call_eq _ _)
  by_cases hcap : B.max c.input < k.delim.length
  · have hout : k.outcome oom (B.max c.input) (c.stream (B.tell c.input)) =
        ((some .oob, none), 0) := if_pos hcap
    have hscan : htcReadScan (B.tell c.input) k.delim c = (some .oob, c) :=
      htcReadScan_oob k.delim_ne hcap
    have hone : htsReadScanParse (B.tell c.input) k.delim k.rule oom c = ((some .oob, []), c) :=
      htsReadScanParse_scan (B.tell_le c.input) (B.fin_le c.input) (by simp) hscan oom
    rw [hout]
    refine ⟨c, ⟨1, ?_⟩, fun hok => by cases hok⟩
    simp only [retry, hcall, hone, k.result_of_ne (e := .oob) (by decide)]
    rfl
  · have hcap' := Nat.not_lt.mp hcap
    obtain ⟨e, p, result, c₁, hsettles, hsettled⟩ :=
      htsReadScanParse_settles k.rule oom (scanning_start rfl hs) k.delim_ne hcap'
    obtain ⟨hfails, hfinds⟩ := outcome_of_shot oom hcap' hsettled.shot
    have hrun := hsettles.map k.readAgain_result
    rw [← hcall] at hrun
    by_cases he : e = .ok
    · obtain ⟨rfl, hoffset⟩ := hsettled.found he
      rw [hfinds he]
      refine ⟨c₁, hrun, fun hok => ⟨hsettled.max, hsettled.streams, ?_⟩⟩
      have htell := hoffset (k.result_ok hok)
      have hle := B.tell_le c₁.input
      rw [htell] at hle ⊢
      rw [Htconn.stream_drop hle, hsettled.stream]
    · rw [hsettled.failed he, k.result_of_ne he] at hrun
      rw [hfails he]
      exact ⟨c₁, hrun, fun hok => absurd (Option.some.inj hok) he⟩

end HeadCall

/-! ### Sessions -/

/-- Reads one after the other, each called at the offset until it no longer asks
to wait, as long as they succeed. With each read goes whether the parser runs out
of memory in it. -/
inductive Session {B : ByteBuffer} :
    List (HeadCall × Bool) → Htconn B → List (Option Err × Option HeadPart) → Htconn B → Prop
  | done (c : Htconn B) : Session [] c [] c
  | fails {k : HeadCall} {oom : Bool} {ks : List (HeadCall × Bool)} {c c₁ : Htconn B}
      {result : Option Err × Option HeadPart} :
      Settles (k.call (B.tell c.input) oom) readAgain c (result, c₁) → result.1 ≠ some .ok →
      Session ((k, oom) :: ks) c [result] c₁
  | next {k : HeadCall} {oom : Bool} {ks : List (HeadCall × Bool)} {c c₁ c₂ : Htconn B}
      {result : Option Err × Option HeadPart} {results : List (Option Err × Option HeadPart)} :
      Settles (k.call (B.tell c.input) oom) readAgain c (result, c₁) → result.1 = some .ok →
      Session ks c₁ results c₂ → Session ((k, oom) :: ks) c (result :: results) c₂

/-- What the reads give on a stream, and what they leave of it if they all succeed. -/
def sessionOutcome (cap : ℕ) :
    List (HeadCall × Bool) → List UInt8 → List (Option Err × Option HeadPart) × List UInt8
  | [], w => ([], w)
  | (k, oom) :: ks, w =>
    let (result, n) := k.outcome oom cap w
    if result.1 = some .ok then
      let (results, rest) := sessionOutcome cap ks (w.drop n)
      (result :: results, rest)
    else ([result], w)

variable {B : ByteBuffer}

theorem Session.unique {ks : List (HeadCall × Bool)} {c c₁ c₂ : Htconn B}
    {results₁ results₂ : List (Option Err × Option HeadPart)} (h₁ : Session ks c results₁ c₁)
    (h₂ : Session ks c results₂ c₂) : results₁ = results₂ := by
  induction h₁ generalizing results₂ c₂ with
  | done c => cases h₂ with | done => rfl
  | fails hsettles hne =>
    cases h₂ with
    | fails hsettles' _ => rw [(Prod.mk.inj (hsettles.unique hsettles')).1]
    | next hsettles' hok _ => exact absurd ((Prod.mk.inj (hsettles.unique hsettles')).1 ▸ hok) hne
  | next hsettles hok _ ih =>
    cases h₂ with
    | fails hsettles' hne => exact absurd ((Prod.mk.inj (hsettles.unique hsettles')).1 ▸ hok) hne
    | next hsettles' _ hrest =>
      obtain ⟨rfl, rfl⟩ := Prod.mk.inj (hsettles.unique hsettles')
      rw [ih hrest]

/-- A session comes to its outcome. -/
theorem session_outcome (ks : List (HeadCall × Bool)) {c : Htconn B}
    (hs : Streams c.security c.socket.recv) : ∃ c',
    Session ks c (sessionOutcome (B.max c.input) ks (c.stream (B.tell c.input))).1 c' ∧
    ((∀ r ∈ (sessionOutcome (B.max c.input) ks (c.stream (B.tell c.input))).1,
      r.1 = some .ok) → c'.stream (B.tell c'.input) =
        (sessionOutcome (B.max c.input) ks (c.stream (B.tell c.input))).2) := by
  induction ks generalizing c with
  | nil => exact ⟨c, .done c, fun _ => rfl⟩
  | cons read ks ih =>
    obtain ⟨k, oom⟩ := read
    obtain ⟨c₁, hsettles, hnext⟩ := k.settles oom hs
    simp only [sessionOutcome]
    split_ifs with hok
    · obtain ⟨hmax, hs₁, hstream⟩ := hnext hok
      obtain ⟨c₂, hsession, hleft⟩ := ih hs₁
      rw [hmax, hstream] at hsession hleft
      exact ⟨c₂, .next hsettles hok hsession, fun hall => hleft fun r hr =>
        hall r (List.mem_cons_of_mem _ hr)⟩
    · exact ⟨c₁, .fails hsettles hok, fun hall => absurd (hall _ List.mem_cons_self) hok⟩

/-- However the stream of a connection arrives, and whatever part of it the input
buffer holds already, any sequence of reads of request lines and headers ends
with the same results, which are those of the stream, of the capacity of the
buffer and of the reads in which the parser runs out of memory. -/
theorem session_follows_stream (B : ByteBuffer) (ks : List (HeadCall × Bool)) (c : Htconn B)
    (hs : Streams c.security c.socket.recv) :
    (∃ c', Session ks c (sessionOutcome (B.max c.input) ks (c.stream (B.tell c.input))).1 c') ∧
    ∀ results c', Session ks c results c' →
      results = (sessionOutcome (B.max c.input) ks (c.stream (B.tell c.input))).1 := by
  obtain ⟨c', hsession, -⟩ := session_outcome ks hs
  exact ⟨⟨c', hsession⟩, fun results c₁ h => h.unique hsession⟩

/-- A connection that delivers a head in two parts. -/
theorem session_follows_stream_split : ∃ c', Session [(.reqline, false), (.headers, false)]
    (headConn (getLine ++ oneField)) (sessionOutcome 32 [(.reqline, false), (.headers, false)]
      ((headConn (getLine ++ oneField)).stream 0)).1 c' :=
  (session_follows_stream Ring.buffer [(.reqline, false), (.headers, false)]
    (headConn (getLine ++ oneField)) (by decide)).1

/-! ### Heads that follow each other -/

/-- The two reads of each of the heads, with memory for all of them. -/
def headCalls (heads : List (List UInt8)) : List (HeadCall × Bool) :=
  heads.flatMap fun _ => [(.reqline, false), (.headers, false)]

/-- The heads that pairs of results yield. -/
def headsOf : List (Option Err × Option HeadPart) →
    List (Option (HtsReqline × List (List UInt8 × List UInt8)))
  | (_, some (.reqline reqline)) :: (_, some (.headers list)) :: results =>
    (hthFields list).map (fun fields => (reqline, fields)) :: headsOf results
  | _ => []

section Heads

variable {s rest : List UInt8} {cap : ℕ} {nodes : List Node} {line l : List UInt8 × List Node}
  {ls : List (List UInt8 × List Node)}

/-- The delimiter is found in time. -/
theorem HeadCall.outcome_of_first {k : HeadCall} {w text : List UInt8} {i : ℕ}
    (hfirst : FirstAt k.delim (text ++ w) 0 i) (htext : text.length = i + k.delim.length)
    (hfit : text.length ≤ cap) :
    k.outcome false cap (text ++ w) = (k.result (parsed k.rule text), text.length) := by
  have hshot : OneShot cap k.delim (text ++ w) 0 .ok (i + k.delim.length) :=
    .ok i hfirst (by omega)
  rw [(HeadCall.outcome_of_shot _ (by omega) hshot).2 rfl, ← htext, List.take_left,
    parsedWith_false]

theorem reqline_outcome (h : HeadParts s nodes line ls) {reqline : HtsReqline}
    (hline : reqlineFromAst line.2 = some reqline) (hfit : line.1.length + 2 ≤ cap)
    (w : List UInt8) :
    HeadCall.reqline.outcome false cap (line.1 ++ [0x0D, 0x0A] ++ w) =
      ((some .ok, some (.reqline reqline)), line.1.length + 2) := by
  have hfirst : FirstAt [0x0D, 0x0A] (line.1 ++ [0x0D, 0x0A] ++ w) 0 line.1.length := by
    rw [List.append_assoc]
    exact FirstAt.behind h.line.clean w
  have hlen : (line.1 ++ [(0x0D : UInt8), 0x0A]).length = line.1.length + 2 := by simp
  have hparsed : parsed Htp.requestLine (line.1 ++ [0x0D, 0x0A]) = (some .ok, line.2) := by
    rw [parsed, parse_requestLine h.line]
  have hout := HeadCall.outcome_of_first (k := .reqline) hfirst hlen (hlen.trans_le hfit)
  rw [hout, hlen]
  simp only [HeadCall.rule, HeadCall.result, hparsed, reqlineResult, hline, Option.map_some]

theorem headers_outcome (hl : IsLine 0x0D Htp.parseField l)
    (hls : ∀ l ∈ ls, IsLine 0x0D Htp.parseField l) (hlen : ls.length ≤ 127)
    (hfit : (ended 0x0D 0x0A (l :: ls)).length + 2 ≤ cap) (w : List UInt8) :
    HeadCall.headers.outcome false cap (ended 0x0D 0x0A (l :: ls) ++ [0x0D, 0x0A] ++ w) =
      ((some .ok, some (.headers (captured (l :: ls)))),
        (ended 0x0D 0x0A (l :: ls)).length + 2) := by
  have hlong : 2 ≤ (ended 0x0D 0x0A (l :: ls)).length := by
    simp only [ended, List.flatMap_cons, List.length_append, List.length_cons, List.length_nil]
    omega
  have hne : ∀ m ∈ ls, m.1 ≠ [] := by
    intro m hm hnil
    have hparse := (hls m hm).parse
    rw [hnil, parseField_nil] at hparse
    cases hparse
  have hfirst : FirstAt [0x0D, 0x0A, 0x0D, 0x0A]
      (ended 0x0D 0x0A (l :: ls) ++ [0x0D, 0x0A] ++ w) 0
      ((ended 0x0D 0x0A (l :: ls)).length - 2) := by
    rw [List.append_assoc]
    exact first_blank (by decide) hl hls hne w
  have hcount : (ended 0x0D 0x0A (l :: ls) ++ [(0x0D : UInt8), 0x0A]).length =
      (ended 0x0D 0x0A (l :: ls)).length + 2 := by simp
  have hparsed : parsed Htp.headers (ended 0x0D 0x0A (l :: ls) ++ [0x0D, 0x0A]) =
      (some .ok, captured (l :: ls)) := by
    rw [parsed, parse_headers hl hls hlen]
  have hdelim : (ended 0x0D 0x0A (l :: ls) ++ [(0x0D : UInt8), 0x0A]).length =
      (ended 0x0D 0x0A (l :: ls)).length - 2 + HeadCall.headers.delim.length := by
    rw [hcount, show HeadCall.headers.delim.length = 4 from rfl]
    omega
  have hout := HeadCall.outcome_of_first (k := .headers) hfirst hdelim (hcount.trans_le hfit)
  rw [hout, hcount]
  simp only [HeadCall.rule, HeadCall.result, hparsed, if_true]

/-- The two reads take one head from the stream, and yield what one parse of it
yields. -/
theorem headCalls_outcome {head : HtsReqline × List (List UInt8 × List UInt8)}
    (hread : readHead s = some head) (hfield : HasHeaderLine s) (hfit : s.length ≤ cap)
    (ks : List (HeadCall × Bool)) (w : List UInt8) : ∃ list, hthFields list = some head.2 ∧
      sessionOutcome cap ((.reqline, false) :: (.headers, false) :: ks) (s ++ w) =
        ((some .ok, some (.reqline head.1)) :: (some .ok, some (.headers list)) ::
          (sessionOutcome cap ks w).1, (sessionOutcome cap ks w).2) := by
  obtain ⟨nodes, line, ls, hparts, hline, hfields⟩ := headParts_of_readHead hread
  obtain ⟨l, ls', rfl⟩ := List.exists_cons_of_ne_nil (hparts.hasHeaderLine_iff.mp hfield)
  have hcount := hparts.length
  rw [List.length_cons] at hcount
  have hlen := hparts.length_eq
  have htext : s ++ w = line.1 ++ [0x0D, 0x0A] ++
      (ended 0x0D 0x0A (l :: ls') ++ [0x0D, 0x0A] ++ w) := by
    rw [hparts.text]
    simp
  have hline_fits : line.1.length + 2 ≤ cap := by omega
  have hfields_fit : (ended 0x0D 0x0A (l :: ls')).length + 2 ≤ cap := by omega
  have hfirst := reqline_outcome hparts hline hline_fits
    (ended 0x0D 0x0A (l :: ls') ++ [0x0D, 0x0A] ++ w)
  have hsecond := headers_outcome (hparts.lines l List.mem_cons_self)
    (fun m hm => hparts.lines m (List.mem_cons_of_mem _ hm)) (by omega) hfields_fit w
  refine ⟨captured (l :: ls'), hfields, ?_⟩
  rw [htext]
  simp only [sessionOutcome, hfirst, if_true]
  rw [List.drop_left' (by simp), hsecond]
  simp only [if_true]
  rw [List.drop_left' (by simp)]

theorem heads_outcome {heads : List (List UInt8)} {extra : List UInt8}
    (hheads : ∀ s ∈ heads, (readHead s).isSome ∧ HasHeaderLine s)
    (hfit : ∀ s ∈ heads, s.length ≤ cap) :
    ∃ results, sessionOutcome cap (headCalls heads) (heads.flatten ++ extra) = (results, extra) ∧
      (∀ r ∈ results, r.1 = some .ok) ∧ headsOf results = heads.map readHead := by
  induction heads with
  | nil => exact ⟨[], rfl, fun r hr => (by cases hr), rfl⟩
  | cons s heads ih =>
    obtain ⟨hsome, hfield⟩ := hheads s List.mem_cons_self
    obtain ⟨head, hread⟩ := Option.isSome_iff_exists.mp hsome
    obtain ⟨results, hout, hok, hof⟩ := ih (fun t ht => hheads t (List.mem_cons_of_mem _ ht))
      fun t ht => hfit t (List.mem_cons_of_mem _ ht)
    obtain ⟨list, hlist, hfirst⟩ := headCalls_outcome hread hfield (hfit s List.mem_cons_self)
      (headCalls heads) (heads.flatten ++ extra)
    rw [hout] at hfirst
    refine ⟨(some .ok, some (.reqline head.1)) :: (some .ok, some (.headers list)) :: results,
      ?_, ?_, ?_⟩
    · rw [List.flatten_cons, List.append_assoc]
      exact hfirst
    · intro r hr
      rcases List.mem_cons.mp hr with rfl | hr
      · rfl
      rcases List.mem_cons.mp hr with rfl | hr
      · rfl
      exact hok r hr
    · simp only [headsOf, hlist, hof, Option.map_some, List.map_cons, hread]

end Heads

/-- Heads with a header line each, which the input buffer can hold, that follow
each other on a connection are read one after the other while the parser's memory
lasts, each as one parse of it alone reads it, and the bytes behind the last one
are left. -/
theorem pipelined_heads_read (B : ByteBuffer) (c : Htconn B) (heads : List (List UInt8))
    (extra : List UInt8) (hheads : ∀ s ∈ heads, (readHead s).isSome ∧ HasHeaderLine s)
    (hfit : ∀ s ∈ heads, s.length ≤ B.max c.input)
    (hstream : c.stream (B.tell c.input) = heads.flatten ++ extra)
    (hs : Streams c.security c.socket.recv) :
    ∃ results c', Session (headCalls heads) c results c' ∧ headsOf results = heads.map readHead ∧
      c'.stream (B.tell c'.input) = extra := by
  obtain ⟨results, hout, hok, hof⟩ := heads_outcome hheads hfit
  obtain ⟨c', hsession, hleft⟩ := session_outcome (headCalls heads) hs
  rw [hstream, hout] at hsession hleft
  exact ⟨results, c', hsession, hof, hleft hok⟩

/-- Two heads in one arrival, of which a ring of 32 bytes holds one at a time. -/
theorem pipelined_heads_read_twice : ∃ results c',
    Session (headCalls [71 :: getLine ++ oneField, 71 :: getLine ++ oneField])
      (headConn (getLine ++ oneField ++ 71 :: getLine ++ oneField)) results c' ∧
    headsOf results = [71 :: getLine ++ oneField, 71 :: getLine ++ oneField].map readHead ∧
    c'.stream (Ring.buffer.tell c'.input) = [] := by
  have hone : (readHead (71 :: getLine ++ oneField)).isSome ∧
      HasHeaderLine (71 :: getLine ++ oneField) :=
    ⟨rfl, 14, FirstAt.behind (by decide) [65, 58, 32, 98, 0x0D, 0x0A, 0x0D, 0x0A], by decide⟩
  refine pipelined_heads_read Ring.buffer _ _ [] (fun s hs => ?_) (fun s hs => ?_) rfl (by decide)
  · rcases List.mem_cons.mp hs with rfl | hs
    · exact hone
    · rw [List.mem_singleton.mp hs]
      exact hone
  · rcases List.mem_cons.mp hs with rfl | hs
    · decide
    · rw [List.mem_singleton.mp hs]
      decide

end Lawd
