import Lawd.Reqline
import Lawd.Sessions
import Lawd.Sync

/-!
# Reading heads with the blocking calls

A handler reads with `law_hts_read_reqline_sync` and `law_hts_read_headers_sync`,
and may read again what it has given up because the time was over. Only a read
that succeeds moves on in the stream, so the time limits and the waits between
the calls have no influence on what is read, as long as the handler goes on: a
suspension of `law_sync` may be its last.
-/
namespace Lawd

open Library Library.Peg

variable {B : ByteBuffer} {base cap : ℕ} {w : List UInt8} {c : Htconn B} {k : HeadCall}
  {oom wakes : Bool} {timeout start : Time}

/-! ### What a call leaves -/

theorem htcReadScan_kept {d : List UInt8} (h : Scanning base d w 0 cap c) (hd : d ≠ [])
    (hne : (htcReadScan base d c).1 ≠ some .ok) :
    Scanning base d w 0 cap (htcReadScan base d c).2 := by
  by_cases hlen : d.length ≤ cap
  · obtain ⟨result, c₁, heq, h₁, -, -⟩ := h.read hd hlen
    rw [heq] at hne ⊢
    rw [scanInput_snd]
    cases hs : search d (B.unread c₁.input) with
    | some i =>
      obtain ⟨hfound, -⟩ := B.scan_found c₁.input d i hd (search_some hs)
      exact absurd (by simp only [scanInput, hfound, if_true]) hne
    | none =>
      obtain ⟨-, hmoved⟩ := B.scan_missing c₁.input d hd (search_none hs)
      exact (h₁.missed (search_none hs) hmoved).2
  · rwa [htcReadScan_oob hd (by rw [h.max]; omega)]

@[simp] theorem HeadCall.result_parsed (k : HeadCall) (oom : Bool) (text : List UInt8) :
    (k.result (parsedWith oom k.rule text)).1 = (parsedWith oom k.rule text).1 := by
  cases oom with
  | true => cases k <;> rfl
  | false =>
  rw [parsedWith_false]
  cases k with
  | headers => rfl
  | reqline =>
    unfold parsed
    split
    · next list hp =>
      obtain ⟨vs, r, vs', hbody, hend, rfl⟩ := parse_seq.mp hp
      obtain ⟨t, -, hd⟩ := derives_of_parse hbody
      obtain ⟨reqline, hline, -⟩ := requestBody_render hd
      obtain ⟨rfl, rfl⟩ := parse_pair.mp hend
      simp [HeadCall.result, reqlineResult, hline]
    · rfl

theorem HeadCall.call_scan (oom : Bool) (h : Scanning base k.delim w 0 cap c) {e : Err}
    (hscan : (htcReadScan base k.delim c).1 = some e) (hne : e ≠ .ok) :
    k.call base oom c = ((some e, none), (htcReadScan base k.delim c).2) := by
  have hb : base ≤ B.fin c.input := h.base_le.trans (B.tell_le c.input)
  have hroom : B.fin c.input ≤ base + B.max c.input := by
    rw [h.max]
    exact h.fin_le
  have hne' : (some e : Option Err) ≠ some .ok := fun hno => hne (Option.some.inj hno)
  rw [k.call_eq, htsReadScanParse_scan hb hroom hne' (Prod.ext hscan rfl)]
  exact Prod.ext (k.result_of_ne hne []) rfl

theorem htcReadScan_code {d : List UInt8} (h : Scanning base d w 0 cap c) (hd : d ≠ []) :
    ∃ e, (htcReadScan base d c).1 = some e ∧ (e = .ok → d.length ≤ cap) := by
  by_cases hlen : d.length ≤ cap
  · obtain ⟨-, hcall⟩ := htcReadScan_step h hd hlen
    cases hout : (htcReadScan base d c).1 with
    | some e => exact ⟨e, rfl, fun _ => hlen⟩
    | none =>
      rw [hout] at hcall
      cases hcall
  · have hscan : htcReadScan base d c = (some .oob, c) :=
      htcReadScan_oob hd (by rw [h.max]; omega)
    exact ⟨.oob, by rw [hscan], fun hno => by cases hno⟩

/-- Where the delimiter is found, what is in front of its end is parsed. -/
theorem HeadCall.call_found (oom : Bool) (h : Scanning base k.delim w 0 cap c)
    (hscan : (htcReadScan base k.delim c).1 = some .ok) (hlen : k.delim.length ≤ cap) :
    ∃ p c', OneShot cap k.delim w 0 .ok p ∧
      k.call base oom c = (k.result (parsedWith oom k.rule (w.take p)), c') ∧
      c'.stream base = w ∧ B.max c'.input = cap ∧ Streams c'.security c'.socket.recv ∧
      B.tell c'.input =
        if (parsedWith oom k.rule (w.take p)).1 = some .ok then base + p else base := by
  have hb : base ≤ B.fin c.input := h.base_le.trans (B.tell_le c.input)
  have hroom : B.fin c.input ≤ base + B.max c.input := by
    rw [h.max]
    exact h.fin_le
  obtain ⟨hcons, hcall⟩ := htcReadScan_step h k.delim_ne hlen
  obtain ⟨e, p, he, hshot, htell⟩ := hcall.ended (by rw [hscan]; rfl)
  obtain rfl : e = .ok := Option.some.inj (he.symm.trans hscan)
  obtain ⟨input₀, input, hmoved₀, hmoved, heq⟩ :=
    htsReadScanParse_found (g := k.rule) hb hroom (Prod.ext hscan rfl) hcons (htell rfl) oom
  have hkeep : ∀ {i q}, B.Moved (htcReadScan base k.delim c).2.input i q →
      ({ (htcReadScan base k.delim c).2 with input := i } : Htconn B).stream base = w ∧
        B.max i = cap := by
    intro i q hm
    refine ⟨?_, hm.max.trans (hcons.max.trans h.max)⟩
    rw [← hcons.bytes]
    simp only [Htconn.stream, hm.fin, hm.window]
  obtain ⟨hstream₀, hmax₀⟩ := hkeep hmoved₀
  obtain ⟨hstream, hmax⟩ := hkeep hmoved
  rw [k.call_eq, heq]
  cases oom with
  | true => exact ⟨p, _, hshot, rfl, hstream₀, hmax₀, hcons.streams, hmoved₀.tell⟩
  | false =>
    simp only [Bool.false_eq_true, if_false]
    rcases hp : parse k.rule (w.take p) with _ | ⟨list, _ | ⟨b, r⟩⟩
    · have hparsed : parsedWith false k.rule (w.take p) = (some .syn, []) := by
        rw [parsedWith_false, parsed, hp]
      exact ⟨p, _, hshot, by rw [hparsed], hstream₀, hmax₀, hcons.streams,
        hmoved₀.tell.trans (if_neg (by rw [hparsed]; decide)).symm⟩
    · have hparsed : parsedWith false k.rule (w.take p) = (some .ok, list) := by
        rw [parsedWith_false, parsed, hp]
      exact ⟨p, _, hshot, by rw [hparsed], hstream, hmax, hcons.streams,
        hmoved.tell.trans (if_pos (by rw [hparsed])).symm⟩
    · have hparsed : parsedWith false k.rule (w.take p) = (some .syn, []) := by
        rw [parsedWith_false, parsed, hp]
      exact ⟨p, _, hshot, by rw [hparsed], hstream₀, hmax₀, hcons.streams,
        hmoved₀.tell.trans (if_neg (by rw [hparsed]; decide)).symm⟩

theorem HeadCall.call_kept (h : Scanning base k.delim w 0 cap c)
    (hne : (k.call base oom c).1.1 ≠ some .ok) :
    Scanning base k.delim w 0 cap (k.call base oom c).2 := by
  obtain ⟨e, he, hlen⟩ := htcReadScan_code h k.delim_ne
  by_cases hok : e = .ok
  · subst hok
    obtain ⟨p, c', -, hcall, hstream, hmax, hstreams, htell⟩ :=
      call_found oom h he (hlen rfl)
    rw [hcall, k.result_parsed] at hne
    rw [if_neg hne] at htell
    rw [hcall]
    have hfin := B.fin_le c'.input
    rw [htell, hmax] at hfin
    exact ⟨hmax, hstreams, htell.ge, hfin, hstream, fun i => by rw [htell, Nat.sub_self]⟩
  · rw [call_scan oom h he hok]
    refine htcReadScan_kept h k.delim_ne ?_
    rw [he]
    exact fun hno => hok (Option.some.inj hno)

/-- A read that ends has the outcome of the stream, and if it succeeds goes on
behind what it has read. -/
theorem HeadCall.call_last (h : Scanning base k.delim w 0 cap c)
    (hlast : readAgain (k.call base oom c).1 = false) :
    (k.call base oom c).1 = (k.outcome oom cap w).1 ∧ ((k.call base oom c).1.1 = some .ok →
      B.max (k.call base oom c).2.input = cap ∧
      Streams (k.call base oom c).2.security (k.call base oom c).2.socket.recv ∧
      (k.call base oom c).2.stream (B.tell (k.call base oom c).2.input) =
        w.drop (k.outcome oom cap w).2) := by
  obtain ⟨e, he, hlen⟩ := htcReadScan_code h k.delim_ne
  by_cases hok : e = .ok
  · subst hok
    obtain ⟨p, c', hshot, hcall, hstream, hmax, hstreams, htell⟩ :=
      call_found oom h he (hlen rfl)
    obtain ⟨-, hout⟩ := outcome_of_shot oom (hlen rfl) hshot
    rw [hcall, hout rfl]
    refine ⟨rfl, fun hres => ⟨hmax, hstreams, ?_⟩⟩
    rw [k.result_parsed] at hres
    rw [if_pos hres] at htell
    have hle := B.tell_le c'.input
    rw [htell] at hle ⊢
    rw [Htconn.stream_drop hle, hstream]
  · have hcall := call_scan oom h he hok
    rw [hcall] at hlast ⊢
    have hout : (k.outcome oom cap w).1 = (some e, none) := by
      by_cases hcap : k.delim.length ≤ cap
      · obtain ⟨-, hstep⟩ := htcReadScan_step h k.delim_ne hcap
        obtain ⟨e', p, he', hshot, -⟩ := hstep.ended (by rw [he]; exact hlast)
        obtain rfl : e = e' := Option.some.inj (he.symm.trans he')
        rw [(outcome_of_shot oom hcap hshot).1 hok]
      · rw [htcReadScan_oob k.delim_ne (by rw [h.max]; omega)] at he
        obtain rfl := Option.some.inj he
        rw [outcome, if_pos (Nat.not_le.mp hcap)]
    exact ⟨hout.symm, fun hno => absurd (Option.some.inj hno) hok⟩

/-! ### Blocking calls -/

/-- `law_hts_read_reqline_cb` and `law_hts_read_headers_cb`: the code of the read is
returned, and what it yields is stored. A read without a code would halt; none
does (`HeadCall.outcome_code`). -/
def HeadCall.callback (k : HeadCall) (base : ℕ) (oom : Bool) (_ : Unit)
    (s : Option HeadPart × Htconn B) : Err × Option HeadPart × Htconn B :=
  let (result, c) := k.call base oom s.2
  (result.1.getD .sys, result.2, c)

/-- `law_hts_read_reqline_sync` and `law_hts_read_headers_sync`. Whether the parser
runs out of memory is one answer for all the calls, of which the last one only
comes to the parse. -/
def HeadCall.sync (k : HeadCall) (base : ℕ) (oom wakes : Bool) (timeout start : Time)
    (rounds : List (SyncRound Unit)) (s : Option HeadPart × Htconn B) :
    Option (Err × Option HeadPart × Htconn B) :=
  lawSync (k.callback base oom) (resumed wakes) timeout start rounds s

/-- A read that is made again from the same base as long as the time is over or the
task cannot wait, and then ends. Whether the parser runs out of memory is that of
the last of the reads. -/
inductive BlockingRead (wakes : Bool) (k : HeadCall) (base : ℕ) :
    Bool → Htconn B → Err × Option HeadPart → Htconn B → Prop
  | ends {oom : Bool} {c c' : Htconn B} {e : Err} {part₀ part : Option HeadPart}
      {timeout start : Time} {rounds : List (SyncRound Unit)} :
      k.sync base oom wakes timeout start rounds (part₀, c) = some (e, part, c') →
      e ≠ .time → e ≠ .sys → BlockingRead wakes k base oom c (e, part) c'
  | again {oom oom₁ : Bool} {c c₁ c' : Htconn B} {e : Err} {out : Err × Option HeadPart}
      {part₀ part : Option HeadPart} {timeout start : Time} {rounds : List (SyncRound Unit)} :
      k.sync base oom₁ wakes timeout start rounds (part₀, c) = some (e, part, c₁) →
      e = .time ∨ e = .sys → BlockingRead wakes k base oom c₁ out c' →
      BlockingRead wakes k base oom c out c'

theorem HeadCall.callback_eq {part₀ part : Option HeadPart} {c' : Htconn B} {e : Err} (u : Unit)
    (h : k.callback base oom u (part₀, c) = (e, part, c')) (hsys : e ≠ .sys) :
    k.call base oom c = ((some e, part), c') := by
  unfold callback at h
  dsimp only at h
  rcases hcall : k.call base oom c with ⟨⟨code, part'⟩, c''⟩
  rw [hcall] at h
  obtain ⟨he, hrest⟩ := Prod.mk.inj h
  obtain ⟨rfl, rfl⟩ := Prod.mk.inj hrest
  cases code with
  | none => exact absurd he.symm hsys
  | some code => rw [show e = code from he.symm]

/-- What a blocking read leaves when it is given up, and what it comes to. -/
theorem HeadCall.sync_scanning (h : Scanning base k.delim w 0 cap c) {part₀ part : Option HeadPart}
    {e : Err} {c' : Htconn B} {rounds : List (SyncRound Unit)}
    (hrun : k.sync base oom wakes timeout start rounds (part₀, c) = some (e, part, c')) :
    (e ≠ .ok → Scanning base k.delim w 0 cap c') ∧ (e ≠ .time → e ≠ .sys →
      (some e, part) = (k.outcome oom cap w).1 ∧ (e = .ok → B.max c'.input = cap ∧
        Streams c'.security c'.socket.recv ∧
        c'.stream (B.tell c'.input) = w.drop (k.outcome oom cap w).2)) := by
  have hkeep : ∀ u (s : Option HeadPart × Htconn B), Scanning base k.delim w 0 cap s.2 →
      (k.callback base oom u s).1 ≠ .ok →
      Scanning base k.delim w 0 cap (k.callback base oom u s).2.2 := by
    intro u s hs hne
    refine call_kept hs fun hok => hne ?_
    simp only [callback, hok, Option.getD_some]
  obtain ⟨hleft, hends⟩ := lawSync_run (I := fun s => Scanning base k.delim w 0 cap s.2) hkeep
    (fun _ _ hs hwake => resumed_some hwake ▸ hs) hrun h
  refine ⟨hleft, fun htime hsys => ?_⟩
  obtain ⟨u, ⟨part₁, t⟩, ht, hcall, hwants⟩ := hends htime hsys
  have heq := callback_eq u hcall hsys
  have hlast := call_last ht (by rw [heq]; exact hwants)
  rw [heq] at hlast
  exact ⟨hlast.1, fun hok => hlast.2 (congrArg some hok)⟩

/-- However often it was given up before, a read that ends has the outcome of the
stream. -/
theorem BlockingRead.outcome {out : Err × Option HeadPart} {c' : Htconn B}
    (hr : BlockingRead wakes k base oom c out c') (h : Scanning base k.delim w 0 cap c) :
    (some out.1, out.2) = (k.outcome oom cap w).1 ∧ (out.1 = .ok → B.max c'.input = cap ∧
      Streams c'.security c'.socket.recv ∧
      c'.stream (B.tell c'.input) = w.drop (k.outcome oom cap w).2) := by
  induction hr with
  | ends hrun htime hsys => exact (k.sync_scanning h hrun).2 htime hsys
  | again hrun he _ ih =>
    refine ih ((k.sync_scanning h hrun).1 ?_)
    rintro rfl
    simp at he

/-! ### Sessions with blocking calls -/

/-- Blocking reads one after the other, each at the offset, as long as they
succeed. -/
inductive BlockingSession {B : ByteBuffer} (wakes : Bool) :
    List (HeadCall × Bool) → Htconn B → List (Option Err × Option HeadPart) → Htconn B → Prop
  | done (c : Htconn B) : BlockingSession wakes [] c [] c
  | fails {k : HeadCall} {oom : Bool} {ks : List (HeadCall × Bool)} {c c₁ : Htconn B} {e : Err}
      {part : Option HeadPart} : BlockingRead wakes k (B.tell c.input) oom c (e, part) c₁ →
      e ≠ .ok → BlockingSession wakes ((k, oom) :: ks) c [(some e, part)] c₁
  | next {k : HeadCall} {oom : Bool} {ks : List (HeadCall × Bool)} {c c₁ c₂ : Htconn B}
      {part : Option HeadPart} {results : List (Option Err × Option HeadPart)} :
      BlockingRead wakes k (B.tell c.input) oom c (.ok, part) c₁ →
      BlockingSession wakes ks c₁ results c₂ →
        BlockingSession wakes ((k, oom) :: ks) c ((some .ok, part) :: results) c₂

theorem HeadCall.outcome_code (k : HeadCall) (oom : Bool) (cap : ℕ) (w : List UInt8) :
    ∃ e, (k.outcome oom cap w).1.1 = some e ∧ e ≠ .time ∧ e ≠ .sys := by
  unfold outcome
  by_cases hcap : cap < k.delim.length
  · rw [if_pos hcap]
    exact ⟨.oob, rfl, by decide, by decide⟩
  rw [if_neg hcap]
  cases search k.delim w with
  | some i =>
    dsimp only
    by_cases hfits : i + k.delim.length ≤ cap
    · rw [if_pos hfits, k.result_parsed, parsedWith]
      split_ifs
      · exact ⟨.oom, rfl, by decide, by decide⟩
      unfold parsed
      split
      · exact ⟨.ok, rfl, by decide, by decide⟩
      · exact ⟨.syn, rfl, by decide, by decide⟩
    · rw [if_neg hfits]
      exact ⟨.oob, rfl, by decide, by decide⟩
  | none =>
    dsimp only
    by_cases hfull : cap ≤ w.length
    · rw [if_pos hfull]
      exact ⟨.oob, rfl, by decide, by decide⟩
    · rw [if_neg hfull]
      exact ⟨.eof, rfl, by decide, by decide⟩

/-- Calls that are made again while they ask to wait are one blocking call with time
enough, where a suspended task goes on. -/
theorem HeadCall.sync_of_retry {n : ℕ} {part₀ part : Option HeadPart} {e : Err} {c' : Htconn B}
    (h : retry (k.call base oom) readAgain n c = some ((some e, part), c')) :
    k.sync base oom true 1 0 (List.replicate n ⟨(), 0, true, true⟩) (part₀, c) =
      some (e, part, c') := by
  induction n generalizing c part₀ with
  | zero => cases h
  | succ n ih =>
    have hnow : ¬ (0 : Time) + 1 ≤ 0 := by decide
    rw [List.replicate_succ]
    simp only [sync, lawSync, lawSyncLoop, callback, retry] at h ih ⊢
    rcases hcall : k.call base oom c with ⟨⟨code, part₁⟩, c₁⟩
    rw [hcall] at h
    dsimp only at h ⊢
    rcases code with _ | code
    · simp [readAgain, wantsAgain] at h
    by_cases hwants : code.wants = true
    · have hne : code ≠ .ok := by rintro rfl; cases hwants
      have hagain : readAgain (some code, part₁) = true := hwants
      rw [if_pos hagain] at h
      simp only [Option.getD_some, if_neg hne, if_neg hnow, if_pos hwants, if_true, resumed,
        Option.bind_some]
      exact ih h
    · have hagain : ¬ readAgain (some code, part₁) = true := hwants
      rw [if_neg hagain] at h
      simp only [Option.some.injEq, Prod.mk.injEq] at h
      obtain ⟨⟨rfl, rfl⟩, rfl⟩ := h
      simp only [Option.getD_some]
      split_ifs with hok
      · rw [hok]
      · rfl

/-- Request lines and headers that are read with the blocking calls, whatever their
time limits and however often a read is given up and made again, are those of the
stream, of the capacity of the buffer and of the reads in which the parser runs out
of memory, and such a session there is where a suspended task goes on. The rest of
the stream is left by reads that all succeed. -/
theorem blocking_session_follows_stream (B : ByteBuffer) (ks : List (HeadCall × Bool))
    (c : Htconn B) (hs : Streams c.security c.socket.recv) :
    (∃ c', BlockingSession true ks c
      (sessionOutcome (B.max c.input) ks (c.stream (B.tell c.input))).1 c') ∧
    ∀ wakes results c', BlockingSession wakes ks c results c' →
      results = (sessionOutcome (B.max c.input) ks (c.stream (B.tell c.input))).1 ∧
      ((∀ r ∈ results, r.1 = some .ok) → c'.stream (B.tell c'.input) =
        (sessionOutcome (B.max c.input) ks (c.stream (B.tell c.input))).2) := by
  constructor
  · induction ks generalizing c with
    | nil => exact ⟨c, .done c⟩
    | cons read ks ih =>
      obtain ⟨k, oom⟩ := read
      obtain ⟨c₁, ⟨n, hn⟩, hnext⟩ := k.settles oom hs
      obtain ⟨e, he, htime, hsys⟩ :=
        k.outcome_code oom (B.max c.input) (c.stream (B.tell c.input))
      rcases hout : k.outcome oom (B.max c.input) (c.stream (B.tell c.input))
        with ⟨⟨code, part⟩, m⟩
      rw [hout] at hn hnext he
      obtain rfl : code = some e := he
      have hsync : k.sync (B.tell c.input) oom true 1 0 (List.replicate n ⟨(), 0, true, true⟩)
          (none, c) = some (e, part, c₁) := k.sync_of_retry hn
      have hread : BlockingRead true k (B.tell c.input) oom c (e, part) c₁ :=
        .ends hsync htime hsys
      simp only [sessionOutcome, hout]
      split_ifs with hok
      · obtain rfl := Option.some.inj hok
        obtain ⟨hmax, hs₁, hstream⟩ := hnext rfl
        obtain ⟨c₂, hsession⟩ := ih c₁ hs₁
        rw [hmax, hstream] at hsession
        exact ⟨c₂, .next hread hsession⟩
      · exact ⟨c₁, .fails hread fun hno => hok (congrArg some hno)⟩
  · intro wakes results c' hsession
    induction hsession with
    | done c => exact ⟨rfl, fun _ => rfl⟩
    | fails hread hne =>
      obtain ⟨hout, -⟩ := hread.outcome (scanning_start rfl hs)
      simp only [sessionOutcome, ← hout]
      have hfails : ¬ (some _ : Option Err) = some .ok := fun hno => hne (Option.some.inj hno)
      rw [if_neg hfails]
      exact ⟨rfl, fun hall => absurd (hall _ List.mem_cons_self) hfails⟩
    | next hread _ ih =>
      obtain ⟨hout, hnext⟩ := hread.outcome (scanning_start rfl hs)
      obtain ⟨hmax, hs₁, hstream⟩ := hnext rfl
      have hrest := ih hs₁
      rw [hmax, hstream] at hrest
      simp only [sessionOutcome, ← hout, if_true]
      obtain ⟨rfl, hleft⟩ := hrest
      exact ⟨rfl, fun hall => hleft fun r hr => hall r (List.mem_cons_of_mem _ hr)⟩

/-- A request line and a field, read to the end of the head. -/
theorem blocking_session_follows_stream_late : ∃ c',
    BlockingSession true [(.reqline, false), (.headers, false)] (headConn (getLine ++ oneField))
      (sessionOutcome 32 [(.reqline, false), (.headers, false)]
        ((headConn (getLine ++ oneField)).stream 0)).1 c' :=
  (blocking_session_follows_stream Ring.buffer [(.reqline, false), (.headers, false)]
    (headConn (getLine ++ oneField)) (by decide)).1

end Lawd
