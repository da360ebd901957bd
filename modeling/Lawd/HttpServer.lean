import Lawd.ReadScan
import Lawd.Http

/-!
# Reading request heads

The server reads the request line up to the first line end and the headers up to
the first empty line, and parses what it has found, which must be used up. Each
call is told whether the parser's stack and heap run out of memory.
-/
namespace Lawd

open Library Library.Peg

section Calls

variable {B : ByteBuffer}

/-- `law_hts_read_scan_parse`; without a code, an assertion or test has failed. -/
def htsReadScanParse (base : ℕ) (delim : List UInt8) (parser : Rule) (oom : Bool)
    (c : Htconn B) : (Option Err × List Node) × Htconn B :=
  if ¬ base ≤ B.fin c.input then ((none, []), c)
  else if B.fin c.input - base > B.max c.input then ((some .oob, []), c)
  else
    match htcReadScan base delim c with
    | (some .ok, c) =>
      let fin := B.tell c.input
      match B.seek c.input base with
      | none => ((none, []), c)
      | some input =>
        let lens := B.window input (B.tell input) (B.tell input + (fin - base))
        if oom then ((some .oom, []), { c with input := input })
        else
          match parse parser lens with
          | some (list, []) =>
            match B.seek input fin with
            | none => ((none, []), { c with input := input })
            | some input => ((some .ok, list), { c with input := input })
          | _ => ((some .syn, []), { c with input := input })
    | (e, c) => ((e, []), c)

/-- What `law_hts_read_reqline` makes of the result of the parse. -/
def reqlineResult : Option Err × List Node → Option Err × Option HtsReqline
  | (some .ok, list) =>
    match reqlineFromAst list with
    | some reqline => (some .ok, some reqline)
    | none => (none, none)
  | (e, _) => (e, none)

/-- `law_hts_read_reqline`. -/
def htsReadReqline (base : ℕ) (oom : Bool) (c : Htconn B) :
    (Option Err × Option HtsReqline) × Htconn B :=
  let (result, c) := htsReadScanParse base [0x0D, 0x0A] Htp.requestLine oom c
  (reqlineResult result, c)

/-- `law_hts_read_headers`. -/
def htsReadHeaders (base : ℕ) (oom : Bool) (c : Htconn B) :
    (Option Err × List Node) × Htconn B :=
  htsReadScanParse base [0x0D, 0x0A, 0x0D, 0x0A] Htp.headers oom c

end Calls

/-- The reader is called again when it asks to wait. -/
def readAgain {α : Type*} (result : Option Err × α) : Bool := wantsAgain result.1

variable {B : ByteBuffer} {base o cap p : ℕ} {d w : List UInt8} {c c' : Htconn B} {g : Rule}
  {vs : List Node}

/-- The checks at the start of a call are met between calls. -/
theorem htsReadScanParse_eq (hb : base ≤ B.fin c.input)
    (hroom : B.fin c.input ≤ base + B.max c.input) (oom : Bool) :
    htsReadScanParse base d g oom c =
      match htcReadScan base d c with
      | (some .ok, c) =>
        match B.seek c.input base with
        | none => ((none, []), c)
        | some input =>
          if oom then ((some .oom, []), { c with input := input })
          else
            match parse g (B.window input (B.tell input)
              (B.tell input + (B.tell c.input - base))) with
            | some (list, []) =>
              match B.seek input (B.tell c.input) with
              | none => ((none, []), { c with input := input })
              | some input => ((some .ok, list), { c with input := input })
            | _ => ((some .syn, []), { c with input := input })
      | (e, c) => ((e, []), c) := by
  unfold htsReadScanParse
  rw [if_neg (not_not.mpr hb), if_neg (by omega)]

/-- A scan that has not succeeded is the result of the call. -/
theorem htsReadScanParse_scan (hb : base ≤ B.fin c.input)
    (hroom : B.fin c.input ≤ base + B.max c.input) {e : Option Err} (he : e ≠ some .ok)
    (hscan : htcReadScan base d c = (e, c')) (oom : Bool) :
    htsReadScanParse base d g oom c = ((e, []), c') := by
  rw [htsReadScanParse_eq hb hroom, hscan]
  split
  · next heq => exact absurd (Prod.mk.inj heq).1 he
  · next heq =>
    obtain ⟨rfl, rfl⟩ := Prod.mk.inj heq
    rfl

/-- A scan that has succeeded is followed by a parse of what it has passed, and
the offset is then moved behind it. -/
theorem htsReadScanParse_found (hb : base ≤ B.fin c.input)
    (hroom : B.fin c.input ≤ base + B.max c.input)
    (hscan : htcReadScan base d c = (some .ok, c')) (hcons : Conserved base w c c')
    (htell : B.tell c'.input = base + p) (oom : Bool) :
    ∃ input₀ input, B.Moved c'.input input₀ base ∧ B.Moved c'.input input (base + p) ∧
      htsReadScanParse base d g oom c =
        if oom then ((some .oom, []), { c' with input := input₀ })
        else
          match parse g (w.take p) with
          | some (list, []) => ((some .ok, list), { c' with input := input })
          | _ => ((some .syn, []), { c' with input := input₀ }) := by
  have hle := B.tell_le c'.input
  rw [htell] at hle
  have hfin := hcons.fin_le
  obtain ⟨input₀, hseek₀, hmoved₀⟩ := B.seek_of_le c'.input base (by omega) hfin
  obtain ⟨input, hseek, hmoved⟩ := B.seek_of_le input₀ (base + p)
    (by rw [hmoved₀.fin]; exact hle) (by rw [hmoved₀.fin, hmoved₀.max]; omega)
  have htext : B.window input₀ (B.tell input₀) (B.tell input₀ + (base + p - base)) =
      w.take p := by
    have hsplit := BufferOps.window_append (b := c'.input) (i := base) (j := base + p)
      (Nat.le_add_right _ _) hle
    rw [hmoved₀.tell, hmoved₀.window, Nat.add_sub_cancel_left, ← hcons.bytes, ← hsplit,
      List.append_assoc, List.take_left']
    rw [BufferOps.window_length, Nat.add_sub_cancel_left]
  refine ⟨input₀, input, hmoved₀, hmoved₀.trans hmoved, ?_⟩
  rw [htsReadScanParse_eq hb hroom, hscan]
  simp only [hseek₀, htell, htext, hseek]

theorem scanning_start (htell : B.tell c.input = base) (hs : Streams c.security c.socket.recv) :
    Scanning base d (c.stream base) 0 (B.max c.input) c := by
  refine ⟨rfl, hs, htell.ge, ?_, rfl, fun i => ?_⟩
  · rw [← htell]
    exact B.fin_le c.input
  · rw [htell, Nat.sub_self]

/-- The result of a parse of the text that a scan has passed. -/
def parsed (g : Rule) (text : List UInt8) : Option Err × List Node :=
  match parse g text with
  | some (list, []) => (some .ok, list)
  | _ => (some .syn, [])

/-- The same for a parser that may run out of memory. -/
def parsedWith (oom : Bool) (g : Rule) (text : List UInt8) : Option Err × List Node :=
  if oom then (some .oom, []) else parsed g text

@[simp] theorem parsedWith_false (g : Rule) (text : List UInt8) :
    parsedWith false g text = parsed g text := rfl

theorem parse_of_parsed {text : List UInt8} (h : (parsed g text).1 = some .ok) :
    parse g text = some ((parsed g text).2, []) := by
  unfold parsed at h ⊢
  split at h
  · next heq => rw [heq]
  · cases h

/-- What the calls come to: the code of the scan, or the parse of the text in
front of the delimiter's end, with the offset behind it. -/
structure Settled (base : ℕ) (d w : List UInt8) (o cap : ℕ) (g : Rule) (oom : Bool) (e : Err)
    (p : ℕ) (result : Option Err × List Node) (c : Htconn B) : Prop where
  shot : OneShot cap d w o e p
  stream : c.stream base = w
  max : B.max c.input = cap
  streams : Streams c.security c.socket.recv
  failed : e ≠ .ok → result = (some e, [])
  found : e = .ok → result = parsedWith oom g (w.take p) ∧
    (result.1 = some .ok → B.tell c.input = base + p)

/-- The last call, in a state between calls. -/
theorem htsReadScanParse_last (oom : Bool) (h : Scanning base d w o cap c) (hd : d ≠ [])
    (hlen : d.length ≤ cap) (hlast : wantsAgain (htcReadScan base d c).1 = false) :
    ∃ e p, Settled base d w o cap g oom e p (htsReadScanParse base d g oom c).1
      (htsReadScanParse base d g oom c).2 ∧ e.wants = false := by
  have hb : base ≤ B.fin c.input := h.base_le.trans (B.tell_le c.input)
  have hroom : B.fin c.input ≤ base + B.max c.input := by
    rw [h.max]
    exact h.fin_le
  obtain ⟨hcons, hcall⟩ := htcReadScan_step h hd hlen
  obtain ⟨e, p, he, hshot, htell⟩ := hcall.ended hlast
  have hwants : e.wants = false := by
    rw [he] at hlast
    exact hlast
  have hscan : htcReadScan base d c = (some e, (htcReadScan base d c).2) := Prod.ext he rfl
  refine ⟨e, p, ?_, hwants⟩
  by_cases hok : e = .ok
  · subst hok
    obtain ⟨input₀, input, hmoved₀, hmoved, heq⟩ :=
      htsReadScanParse_found (g := g) hb hroom hscan hcons (htell rfl) oom
    have hkeep : ∀ {i q}, B.Moved (htcReadScan base d c).2.input i q →
        ({ (htcReadScan base d c).2 with input := i } : Htconn B).stream base = w ∧
          B.max i = cap := by
      intro i q hm
      refine ⟨?_, hm.max.trans (hcons.max.trans h.max)⟩
      rw [← hcons.bytes]
      simp only [Htconn.stream, hm.fin, hm.window]
    have hcases : (∃ list, parsedWith oom g (w.take p) = (some .ok, list) ∧
        htsReadScanParse base d g oom c =
          ((some .ok, list), { (htcReadScan base d c).2 with input := input })) ∨
        (parsedWith oom g (w.take p)).1 ≠ some .ok ∧ htsReadScanParse base d g oom c =
          (parsedWith oom g (w.take p), { (htcReadScan base d c).2 with input := input₀ }) := by
      rw [heq, parsedWith]
      split_ifs
      · exact .inr ⟨by simp, rfl⟩
      · unfold parsed
        split
        · next list hp => exact .inl ⟨list, rfl, rfl⟩
        · exact .inr ⟨by simp, rfl⟩
    rcases hcases with ⟨list, hp, hres⟩ | ⟨hp, hres⟩
    · rw [hres]
      obtain ⟨hstream, hmax⟩ := hkeep hmoved
      exact ⟨hshot, hstream, hmax, hcons.streams, fun hno => absurd rfl hno,
        fun _ => ⟨hp.symm, fun _ => hmoved.tell⟩⟩
    · rw [hres]
      obtain ⟨hstream, hmax⟩ := hkeep hmoved₀
      exact ⟨hshot, hstream, hmax, hcons.streams, fun hno => absurd rfl hno,
        fun _ => ⟨rfl, fun hno => absurd hno hp⟩⟩
  · have hne : (some e : Option Err) ≠ some .ok := fun hno => hok (Option.some.inj hno)
    rw [htsReadScanParse_scan hb hroom hne hscan]
    exact ⟨hshot, hcons.bytes, hcons.max.trans h.max, hcons.streams, fun _ => rfl,
      fun hno => absurd hno hok⟩

@[simp] theorem readAgain_parsedWith (oom : Bool) (text : List UInt8) :
    readAgain (parsedWith oom g text) = false := by
  rw [parsedWith]
  split_ifs
  · rfl
  · rw [parsed]
    split <;> rfl

/-- However the stream arrives, the calls come to an end. -/
theorem htsReadScanParse_settles (g : Rule) (oom : Bool) (h : Scanning base d w o cap c)
    (hd : d ≠ [])
    (hlen : d.length ≤ cap) : ∃ e p result c₁,
      Settles (htsReadScanParse base d g oom) readAgain c (result, c₁) ∧
      Settled base d w o cap g oom e p result c₁ := by
  have hstep : ∀ u : Htconn B, Scanning base d w o cap u →
      wantsAgain (htcReadScan base d u).1 = true →
      Scanning base d w o cap (htcReadScan base d u).2 ∧
        recvSize (htcReadScan base d u).2.socket.recv < recvSize u.socket.recv :=
    fun u hu hagain => (htcReadScan_step hu hd hlen).2.wantsAgain_iff hagain
  obtain ⟨e, c', hrun⟩ := retry_terminates (fun u : Htconn B => recvSize u.socket.recv)
    hstep h (Nat.lt_succ_self _)
  have hwait : ∀ u : Htconn B, Scanning base d w o cap u →
      wantsAgain (htcReadScan base d u).1 = true →
      Scanning base d w o cap (htcReadScan base d u).2 ∧
        readAgain (htsReadScanParse base d g oom u).1 = true ∧
        (htsReadScanParse base d g oom u).2 = (htcReadScan base d u).2 := by
    intro u hu hagain
    have hne : (htcReadScan base d u).1 ≠ some .ok := fun hok => by
      rw [hok] at hagain
      cases hagain
    rw [htsReadScanParse_scan (hu.base_le.trans (B.tell_le u.input))
      (by rw [hu.max]; exact hu.fin_le) hne rfl]
    exact ⟨(hstep u hu hagain).1, hagain, rfl⟩
  have hend : ∀ u : Htconn B, Scanning base d w o cap u →
      wantsAgain (htcReadScan base d u).1 = false →
      readAgain (htsReadScanParse base d g oom u).1 = false := by
    intro u hu hlast
    obtain ⟨e, p, hsettled, hwants⟩ := htsReadScanParse_last (g := g) oom hu hd hlen hlast
    by_cases hok : e = .ok
    · rw [(hsettled.found hok).1]
      exact readAgain_parsedWith _ _
    · rw [hsettled.failed hok]
      exact hwants
  obtain ⟨t, ht, hcall, hlast, hsettles⟩ := Settles.then h hwait hend ⟨_, hrun⟩
  rw [← hcall] at hlast
  obtain ⟨e, p, hsettled, -⟩ := htsReadScanParse_last (g := g) oom ht hd hlen hlast
  exact ⟨e, p, _, _, hsettles, hsettled⟩

end Lawd
