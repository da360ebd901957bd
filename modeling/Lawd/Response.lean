import Lawd.ReadHead
import Lawd.UriPrint
import Mathlib.Data.Nat.Digits.Lemmas

/-!
# Writing response heads

The head that the server writes with `law_hts_set_status`, `law_hts_add_header`
and `law_hts_begin_body` is one that the grammar accepts, with what was written
as its captures.
-/
namespace Lawd

open Library Library.Peg

/-- A number as `%i` prints it. -/
def formatNat (n : ℕ) : List UInt8 :=
  if n = 0 then [0x30] else (Nat.digits 10 n).reverse.map fun d => UInt8.ofNat (0x30 + d)

/-- `%i`. -/
def formatInt (i : ℤ) : List UInt8 :=
  if i < 0 then '-'.toUInt8 :: formatNat i.natAbs else formatNat i.natAbs

theorem toNat_digit {d : ℕ} (hd : d < 10) : (UInt8.ofNat (0x30 + d)).toNat = 0x30 + d := by
  rw [UInt8.toNat_ofNat', Nat.mod_eq_of_lt (by omega)]

@[simp] theorem decodeDec_append (s : List UInt8) (b : UInt8) :
    decodeDec (s ++ [b]) = 10 * decodeDec s + (b.toNat - 0x30) := by
  rw [decodeDec, List.foldl_append]
  rfl

theorem decodeDec_digits {list : List ℕ} (h : ∀ d ∈ list, d < 10) :
    decodeDec (list.reverse.map fun d => UInt8.ofNat (0x30 + d)) = Nat.ofDigits 10 list := by
  induction list with
  | nil => rfl
  | cons d list ih =>
    have hd := toNat_digit (h d (by simp))
    rw [List.reverse_cons, List.map_append, List.map_singleton, decodeDec_append,
      ih fun x hx => h x (by simp [hx]), hd, Nat.ofDigits_cons]
    omega

@[simp] theorem decodeDec_formatNat (n : ℕ) : decodeDec (formatNat n) = n := by
  unfold formatNat
  split_ifs with hn
  · rw [hn]
    rfl
  · rw [decodeDec_digits fun d hd => Nat.digits_lt_base (by omega) hd, Nat.ofDigits_digits]

theorem isDigit_of_mem_formatNat {n : ℕ} {b : UInt8} (hb : b ∈ formatNat n) :
    isDigit b = true := by
  unfold formatNat at hb
  split_ifs at hb with hn
  · rw [List.mem_singleton.mp hb]
    rfl
  · obtain ⟨d, hd, rfl⟩ := List.mem_map.mp hb
    have hlt : d < 10 := Nat.digits_lt_base (by omega) (List.mem_reverse.mp hd)
    have htoNat := toNat_digit hlt
    simp only [isDigit, Bool.and_eq_true, decide_eq_true_eq, UInt8.le_iff_toNat_le, htoNat]
    exact ⟨Nat.le_add_right _ _, by change 0x30 + d ≤ 0x39; omega⟩

theorem length_formatNat {n k : ℕ} (hlow : 10 ^ k ≤ n) (hhigh : n < 10 ^ (k + 1)) :
    (formatNat n).length = k + 1 := by
  have hpos : 0 < 10 ^ k := Nat.pow_pos (by omega)
  have hle := (Nat.digits_length_le_iff (by omega) n).mpr hhigh
  have hlt := (Nat.lt_digits_length_iff (by omega) n).mpr hlow
  rw [formatNat, if_neg (by omega), List.length_map, List.length_reverse]
  omega

variable {B : ByteBuffer}

/-- `pgc_buf_printf` on the output buffer. -/
def htcPrintf (s : List UInt8) (c : Htconn B) : Err × Htconn B :=
  let (e, output) := bufPrintf B s c.output
  (e, { c with output := output })

/-- The line that `law_hts_set_status` prints. -/
def statusText (version : List UInt8) (status : ℤ) (reason : List UInt8) : List UInt8 :=
  version ++ ' '.toUInt8 :: (formatInt status ++ ' '.toUInt8 :: (reason ++ [0x0D, 0x0A]))

/-- `law_hts_set_status`. -/
def htsSetStatus (version : List UInt8) (status : ℤ) (reason : List UInt8) :
    Htconn B → Err × Htconn B := htcPrintf (statusText version status reason)

/-- The line that `law_hts_add_header` prints, without its end. -/
def headerText (name value : List UInt8) : List UInt8 :=
  name ++ ':'.toUInt8 :: ' '.toUInt8 :: value

/-- `law_hts_add_header`. -/
def htsAddHeader (name value : List UInt8) : Htconn B → Err × Htconn B :=
  htcPrintf (headerText name value ++ [0x0D, 0x0A])

/-- `law_hts_begin_body`. -/
def htsBeginBody (c : Htconn B) : Err × Htconn B := htcPut c [0x0D, 0x0A]

/-- A whole head, as long as the calls return `LAW_ERR_OK`. -/
def htsWriteHead (version : List UInt8) (status : ℤ) (reason : List UInt8)
    (fields : List (List UInt8 × List UInt8)) : Htconn B → Err × Htconn B :=
  andThen .ok (htsSetStatus version status reason) <|
  andThen .ok (forEach .ok (fun field => htsAddHeader field.1 field.2) fields) htsBeginBody

/-! ### The room for a head -/

/-- The bytes that can be queued. -/
def outputRoom (c : Htconn B) : ℕ := bufRoom B c.output

theorem appends_htcPrintf (s : List UInt8) :
    Appends .ok (outputRoom (B := B)) (fun c => B.unread c.output) 1 s (htcPrintf s) :=
  fun c h => appends_bufPrintf s c.output h

theorem costs_htcPrintf (s : List UInt8) :
    Costs .ok (outputRoom (B := B)) s.length (htcPrintf s) :=
  fun c h => costs_bufPrintf s c.output h

theorem emitsPart_htcPrintf (s : List UInt8) :
    EmitsPart .ok (outputRoom (B := B)) (fun c => B.unread c.output) s (htcPrintf s) :=
  fun c => emitsPart_bufPrintf s c.output

theorem htcPut_cases (c : Htconn B) (bs : List UInt8) :
    (bs.length ≤ outputRoom c ∧ ∃ output, htcPut c bs = (.ok, { c with output := output }) ∧
      B.unread output = B.unread c.output ++ bs ∧
      outputRoom c = bufRoom B output + bs.length) ∨
    outputRoom c < bs.length ∧ htcPut c bs = (.oob, c) := by
  have htell := B.tell_le c.output
  have hfin := B.fin_le c.output
  unfold htcPut outputRoom bufRoom
  rcases Nat.lt_or_ge (B.max c.output) (B.fin c.output - B.tell c.output + bs.length) with hlt | hle
  · rw [B.put_of_lt c.output bs hlt]
    exact .inr ⟨by omega, rfl⟩
  · obtain ⟨output, hput, happ⟩ := B.put_of_le c.output bs hle
    rw [hput]
    refine .inl ⟨by omega, output, rfl, ?_, ?_⟩
    · simp only [BufferOps.unread, happ.tell]
      exact happ.window le_rfl htell
    · simp only [happ.max, happ.fin, happ.tell]
      omega

theorem appends_htcPut (bs : List UInt8) :
    Appends .ok (outputRoom (B := B)) (fun c => B.unread c.output) 0 bs (htcPut · bs) := by
  intro c h
  obtain ⟨-, output, hput, htext, hroom⟩ | ⟨hlt, -⟩ := htcPut_cases c bs
  · simp only [hput]
    exact ⟨trivial, htext, hroom⟩
  · exact absurd h (Nat.not_le.mpr hlt)

theorem costs_htcPut (bs : List UInt8) :
    Costs .ok (outputRoom (B := B)) bs.length (htcPut · bs) := by
  intro c h
  obtain ⟨-, output, hput, -, hroom⟩ | ⟨-, hput⟩ := htcPut_cases c bs
  · simp only [hput]
    exact hroom
  · simp only [hput] at h
    cases h

theorem emitsPart_htcPut (bs : List UInt8) :
    EmitsPart .ok (outputRoom (B := B)) (fun c => B.unread c.output) bs (htcPut · bs) := by
  intro c
  obtain ⟨-, output, hput, htext, hroom⟩ | ⟨-, hput⟩ := htcPut_cases c bs
  · simp only [hput]
    exact ⟨bs, htext, hroom, .inl List.prefix_rfl, fun _ => rfl⟩
  · simp only [hput]
    exact ⟨[], (List.append_nil _).symm, rfl, .inl List.nil_prefix, fun h => by cases h⟩

/-- What a head consists of. -/
def headText (version : List UInt8) (status : ℤ) (reason : List UInt8)
    (fields : List (List UInt8 × List UInt8)) : List UInt8 :=
  statusText version status reason ++
    ((fields.flatMap fun field => headerText field.1 field.2 ++ [0x0D, 0x0A]) ++ [0x0D, 0x0A])

section Head

variable (version : List UInt8) (status : ℤ) (reason : List UInt8)
  (fields : List (List UInt8 × List UInt8))

theorem appends_htsWriteHead :
    Appends .ok (outputRoom (B := B)) (fun c => B.unread c.output) 0
      (headText version status reason fields) (htsWriteHead version status reason fields) := by
  have hfields := (Appends.forEach (fun field => appends_htcPrintf (B := B)
    (headerText field.1 field.2 ++ [0x0D, 0x0A])) fields).andThen (appends_htcPut [0x0D, 0x0A])
    (by decide)
  exact (appends_htcPrintf _).andThen hfields (by simp)

theorem costs_htsWriteHead :
    Costs .ok (outputRoom (B := B)) (headText version status reason fields).length
      (htsWriteHead version status reason fields) := by
  have hcosts := (costs_htcPrintf (B := B) (statusText version status reason)).andThen
    ((Costs.forEach (fun field => costs_htcPrintf (headerText field.1 field.2 ++ [0x0D, 0x0A]))
      fields).andThen (costs_htcPut [0x0D, 0x0A]))
  have hlength : (headText version status reason fields).length =
      (statusText version status reason).length + ((fields.map fun field =>
        (headerText field.1 field.2 ++ [0x0D, 0x0A]).length).sum + 2) := by
    rw [headText, List.length_append, List.length_append, List.length_flatMap]
    rfl
  rw [hlength]
  exact hcosts

theorem htsWriteHead_ok_iff (c : Htconn B) :
    (htsWriteHead version status reason fields c).1 = .ok ↔
      (headText version status reason fields).length ≤ outputRoom c := by
  refine ⟨fun h => ?_, fun h => (appends_htsWriteHead version status reason fields c h).1⟩
  rw [costs_htsWriteHead version status reason fields c h]
  exact Nat.le_add_left _ _

theorem emits_htsWriteHead :
    Emits .ok (fun c : Htconn B => B.unread c.output) (headText version status reason fields)
      (htsWriteHead version status reason fields) := fun c h =>
  (appends_htsWriteHead version status reason fields c
    ((htsWriteHead_ok_iff version status reason fields c).mp h)).2.1

end Head

/-! ### What the grammar makes of it -/

/-- A visible character, a space or a tab. -/
def isText (b : UInt8) : Bool := isGraph b || b == 0x20 || b == 0x09

/-- A header field that can be written: its name is a token, and its value does
not begin with a space or a tab. -/
structure IsHeader (field : List UInt8 × List UInt8) : Prop where
  name : parse Htp.token field.1 = some ([], [])
  length : field.2.length ≤ 1023
  text : ∀ b ∈ field.2, isText b = true
  begins : ∀ b ∈ field.2.head?, b ≠ 0x20 ∧ b ≠ 0x09

/-- What is captured from a header line. -/
def fieldNode (field : List UInt8 × List UInt8) : Node :=
  .lst .field [.str .fieldName field.1, .str .fieldValue field.2]

theorem exact_blank : Exact (fun _ => True) (.alt Htp.sp Htp.htab) := by
  refine (UriPar.exact_ch _ _).alt_of_first exact_set rfl rfl fun a ha => ?_
  have htab : a = 0x09 := beq_iff_eq.mp ha
  rw [htab]
  rfl

theorem exact_ows :
    Exact (fun r => ∀ b ∈ r.head?, b ≠ (0x20 : UInt8) ∧ b ≠ 0x09) Htp.ows := by
  refine exact_blank.rep_of_any fun _ r hr => ?_
  cases r with
  | nil => rfl
  | cons b r =>
    obtain ⟨hsp, htab⟩ := hr b rfl
    have hsp' : b ≠ ' '.toUInt8 := hsp
    simp [parse, Htp.sp, Htp.htab, ch, sym, hsp', htab]

/-- The parse of a header line, with what is left of its value behind the blanks. -/
theorem parse_headerText {name value rest : List UInt8}
    (hname : parse Htp.token name = some ([], []))
    (hspace : parse Htp.ows (' '.toUInt8 :: value) = some ([], rest)) (hlen : rest.length ≤ 1023)
    (htext : ∀ b ∈ rest, isText b = true) :
    parse Htp.parseField (headerText name value) = some ([fieldNode (name, rest)], []) := by
  have hcolon : parse Htp.token (name ++ ':'.toUInt8 :: ' '.toUInt8 :: value) =
      some ([], ':'.toUInt8 :: ' '.toUInt8 :: value) := by
    have hexact : Exact (Followed [':']) Htp.token :=
      Exact.rep_of_any exact_set fun _ => UriPar.parse_none_of_followed rfl rfl
    exact hexact _ _ _ (derives_of_full hname) (heads_cons List.mem_cons_self)
  have hvalue : parse Htp.fieldValue (rest ++ []) = some ([], []) := by
    have hexact : Exact (fun r => r = []) Htp.fieldValue :=
      Exact.rep_of_any exact_set fun _ r hr => by rw [hr]; rfl
    exact hexact _ _ [] (derives_rep_set.mpr ⟨rfl, Nat.zero_le _, hlen, htext⟩) rfl
  have hblank : parse Htp.ows [] = some ([], []) := parse_rep_none rfl
  have hvalueNode := parse_cap_append (f := fun text _ => Node.str .fieldValue text) hvalue
  rw [List.append_nil] at hvalueNode
  have hline : parse Htp.headerField (headerText name value) =
      some ([.str .fieldName name, .str .fieldValue rest], []) :=
    parse_seq.mpr ⟨_, _, _, parse_seq.mpr ⟨_, _, _, parse_seq.mpr ⟨_, _, _,
      parse_seq.mpr ⟨_, _, _, parse_cap_append hcolon, rfl, rfl⟩, hspace, rfl⟩,
      hvalueNode, rfl⟩, hblank, rfl⟩
  exact parse_cap_some hline

theorem parse_header {field : List UInt8 × List UInt8} (h : IsHeader field) :
    parse Htp.parseField (headerText field.1 field.2) = some ([fieldNode field], []) := by
  have hspace : parse Htp.ows (' '.toUInt8 :: field.2) = some ([], field.2) := by
    have hd : Derives Htp.ows [' '.toUInt8] [] :=
      derives_of_copies [([' '.toUInt8], [])] (Nat.zero_le _) (by simp) fun p hp => by
        rw [List.mem_singleton.mp hp]
        exact .left (.set (by simp))
    exact exact_ows _ _ _ hd h.begins
  exact parse_headerText h.name hspace h.length h.text

theorem isLine_header {field : List UInt8 × List UInt8} (h : IsHeader field) :
    IsLine 0x0D Htp.parseField (headerText field.1 field.2, [fieldNode field]) := by
  have hp := parse_header h
  exact ⟨(derives_of_full hp).avoids avoids_parseField, hp⟩

theorem exact_httpVersion : Exact (fun _ => True) Htp.httpVersion := by
  have hname : Exact (fun _ => True) Htp.httpName :=
    ((exact_set.seq_of_any exact_set).seq_of_any exact_set).seq_of_any exact_set
  exact (((hname.seq_of_any exact_set).seq_of_any exact_set).seq_of_any exact_set).seq_of_any
    exact_set

/-- The characters of a reason phrase. -/
def reasonChar : Rule := alts Htp.htab [Htp.sp, .set Htp.vchar]

theorem exact_reasonChar : Exact (fun _ => True) reasonChar := by
  have hblank : Exact (fun _ => True) (.alt Htp.htab Htp.sp) := by
    refine Exact.alt_of_first exact_set exact_set rfl rfl fun a ha => ?_
    have hsp : a = ' '.toUInt8 := beq_iff_eq.mp ha
    rw [hsp]
    rfl
  refine hblank.alt_of_first exact_set rfl rfl fun a ha => Bool.eq_false_iff.mpr fun hfirst => ?_
  have hor : a = 0x09 ∨ a = ' '.toUInt8 := by
    simpa [first, nullable, Htp.htab, Htp.sp, ch, sym] using hfirst
  obtain rfl | rfl := hor <;> cases ha

theorem generates_reasonChar {b : UInt8} (hb : isText b = true) : Generates reasonChar [b] := by
  simp only [isText, Bool.or_eq_true, beq_iff_eq] at hb
  obtain (hgraph | rfl) | rfl := hb
  · exact ⟨[], .right (.set hgraph)⟩
  · exact ⟨[], .left (.right (.set rfl))⟩
  · exact ⟨[], .left (.left (.set rfl))⟩

theorem parse_reason {reason : List UInt8} (hlen : reason.length ≤ 127)
    (htext : ∀ b ∈ reason, isText b = true) (u : List UInt8) :
    parse Htp.reasonPhrase (reason ++ 0x0D :: u) = some ([], 0x0D :: u) := by
  have hgen : Generates Htp.reasonPhrase (reason.map ([·])).flatten :=
    generates_of_copies (Nat.zero_le _) (by simpa using hlen) fun t ht => by
      obtain ⟨b, hb, rfl⟩ := List.mem_map.mp ht
      exact generates_reasonChar (htext b hb)
  obtain ⟨vs, hd⟩ := hgen
  have hflat : (reason.map ([·])).flatten = reason := by
    rw [← List.flatMap_def]
    exact List.flatMap_singleton' reason
  rw [hflat] at hd
  obtain rfl := hd.silent rfl
  have hexact : Exact (Heads [0x0D]) Htp.reasonPhrase :=
    exact_reasonChar.rep_of_any fun _ r hr =>
      parse_none_of_heads rfl (List.forall_mem_singleton.mpr rfl) hr
  exact hexact _ _ _ hd (heads_cons List.mem_cons_self)

theorem parse_status {n : ℕ} (hlow : 100 ≤ n) (hhigh : n ≤ 999) (u : List UInt8) :
    parse (readUint32 .status Htp.statusCode) (formatNat n ++ u) =
      some ([.num .status (UInt32.ofNat n)], u) := by
  have hlen : (formatNat n).length = 3 := length_formatNat (k := 2) hlow (by omega)
  have hd : Derives Htp.statusCode (formatNat n) [] :=
    derives_rep_set.mpr ⟨rfl, hlen.ge, hlen.le, fun _ => isDigit_of_mem_formatNat⟩
  have hexact : Exact (fun _ => True) Htp.statusCode :=
    Exact.rep_of_any exact_set fun hlt => absurd hlt (Nat.lt_irrefl 3)
  have hnode := parse_cap_append
    (f := fun text _ => Node.num .status (UInt32.ofNat (decodeDec text)))
    (hexact _ _ u hd trivial)
  rwa [decodeDec_formatNat] at hnode

@[simp] theorem formatInt_natCast (n : ℕ) : formatInt n = formatNat n := by
  rw [formatInt, if_neg (by omega), Int.natAbs_natCast]

variable {version reason : List UInt8} {fields : List (List UInt8 × List UInt8)}

/-- The parse of the status line. -/
theorem parse_statusText {n : ℕ} (hversion : parse Htp.httpVersion version = some ([], []))
    (hlow : 100 ≤ n) (hhigh : n ≤ 999) (hlen : reason.length ≤ 127)
    (htext : ∀ b ∈ reason, isText b = true) (u : List UInt8) :
    parse Htp.statusLine (statusText version n reason ++ u) =
      some ([.str .version version, .num .status (UInt32.ofNat n)], u) := by
  have hline : statusText version n reason ++ u = version ++ ' '.toUInt8 ::
      (formatNat n ++ ' '.toUInt8 :: (reason ++ 0x0D :: 0x0A :: u)) := by
    simp [statusText, formatInt_natCast]
  have hfirst := exact_httpVersion _ _ (' '.toUInt8 :: (formatNat n ++ ' '.toUInt8 ::
    (reason ++ 0x0D :: 0x0A :: u))) (derives_of_full hversion) trivial
  rw [hline]
  exact parse_seq.mpr ⟨_, _, _, parse_seq.mpr ⟨_, _, _, parse_seq.mpr ⟨_, _, _,
    parse_seq.mpr ⟨_, _, _, parse_seq.mpr ⟨_, _, _, parse_cap_append hfirst, rfl, rfl⟩,
    parse_status hlow hhigh _, rfl⟩, rfl, rfl⟩, parse_reason hlen htext _, rfl⟩,
    parse_pair.mpr ⟨rfl, rfl⟩, rfl⟩

@[simp] theorem hthFields_fieldNode (fields : List (List UInt8 × List UInt8)) :
    hthFields (fields.map fieldNode) = some fields := by
  induction fields with
  | nil => rfl
  | cons field fields ih =>
    rw [hthFields] at ih ⊢
    rw [List.map_cons, List.mapM_cons, ih]
    rfl

/-- The parse of a head with any lines that are accepted, whatever follows it. -/
theorem parse_headLines {n : ℕ} (hversion : parse Htp.httpVersion version = some ([], []))
    (hlow : 100 ≤ n) (hhigh : n ≤ 999) (hlen : reason.length ≤ 127)
    (htext : ∀ b ∈ reason, isText b = true) {lines : List (List UInt8 × List Node)}
    (hcount : lines.length ≤ 127) (hlines : ∀ l ∈ lines, IsLine 0x0D Htp.parseField l)
    (u : List UInt8) :
    parse Htp.responseHead
        (statusText version n reason ++ (ended 0x0D 0x0A lines ++ 0x0D :: 0x0A :: u)) =
      some (.str .version version :: .num .status (UInt32.ofNat n) :: captured lines, u) := by
  have hgreedy : greedy (Peg.parse (.seq Htp.parseField (pair 0x0D 0x0A))) 127
      (ended 0x0D 0x0A lines ++ 0x0D :: 0x0A :: u) =
        (captured lines, 0x0D :: 0x0A :: u, lines.length) :=
    greedy_of_ended avoids_parseField parseField_nil hlines hcount (0x0A :: u)
  have hrep := parse_rep_of_greedy hgreedy (Nat.zero_le _)
  exact parse_seq.mpr ⟨_, _, _, parse_seq.mpr ⟨_, _, _,
    parse_statusText hversion hlow hhigh hlen htext _, hrep, rfl⟩, parse_pair.mpr ⟨rfl, rfl⟩,
    (List.append_nil _).symm⟩

/-- The parse of a whole head. -/
theorem parse_headText {n : ℕ} (hversion : parse Htp.httpVersion version = some ([], []))
    (hlow : 100 ≤ n) (hhigh : n ≤ 999) (hlen : reason.length ≤ 127)
    (htext : ∀ b ∈ reason, isText b = true) (hcount : fields.length ≤ 127)
    (hfields : ∀ field ∈ fields, IsHeader field) :
    parse Htp.responseHead (headText version n reason fields) =
      some (.str .version version :: .num .status (UInt32.ofNat n) :: fields.map fieldNode,
        []) := by
  let lines := fields.map fun field => (headerText field.1 field.2, [fieldNode field])
  have hended : ended 0x0D 0x0A lines = fields.flatMap fun field =>
      headerText field.1 field.2 ++ [0x0D, 0x0A] := by
    rw [ended, List.flatMap_map]
  have hcaptured : captured lines = fields.map fieldNode := by
    rw [captured, List.flatMap_map, List.map_eq_flatMap]
  have hlines : ∀ l ∈ lines, IsLine 0x0D Htp.parseField l := by
    intro l hl
    obtain ⟨field, hfield, rfl⟩ := List.mem_map.mp hl
    exact isLine_header (hfields field hfield)
  have hp := parse_headLines hversion hlow hhigh hlen htext (by simpa [lines] using hcount)
    hlines []
  rwa [hended, hcaptured] at hp

/-- A head that was written is accepted in full, with the version, the status and
the fields that were written. -/
theorem write_head_parses (B : ByteBuffer) (version reason : List UInt8) (status : ℤ)
    (fields : List (List UInt8 × List UInt8)) (c c' : Htconn B)
    (hversion : parse Htp.httpVersion version = some ([], []))
    (hlow : 100 ≤ status) (hhigh : status ≤ 999) (hlen : reason.length ≤ 127)
    (htext : ∀ b ∈ reason, isText b = true) (hcount : fields.length ≤ 127)
    (hfields : ∀ field ∈ fields, IsHeader field) (hempty : B.unread c.output = [])
    (hwrite : htsWriteHead version status reason fields c = (.ok, c')) :
    ∃ code list, parse Htp.responseHead (B.unread c'.output) =
        some (.str .version version :: .num .status code :: list, []) ∧
      (code.toNat : ℤ) = status ∧ hthFields list = some fields := by
  lift status to ℕ using by omega
  have hlow' : 100 ≤ status := by omega
  have hhigh' : status ≤ 999 := by omega
  have htail := emits_htsWriteHead version status reason fields c (by rw [hwrite])
  simp only [hwrite, hempty, List.nil_append] at htail
  refine ⟨UInt32.ofNat status, fields.map fieldNode, ?_, ?_, hthFields_fieldNode fields⟩
  · rw [htail]
    exact parse_headText hversion hlow' hhigh' hlen htext hcount hfields
  · rw [UInt32.toNat_ofNat', Nat.mod_eq_of_lt (by omega)]

/-- Two fields, of which the second has a space in its value. -/
def sampleHeaders : List (List UInt8 × List UInt8) := [([65], [98]), ([67], [100, 0x20, 101])]

theorem sampleHeaders_isHeader : ∀ field ∈ sampleHeaders, IsHeader field := by
  refine List.forall_mem_cons.mpr ⟨⟨rfl, by decide, List.all_eq_true.mp (by decide), ?_⟩,
    List.forall_mem_singleton.mpr ⟨rfl, by decide, List.all_eq_true.mp (by decide), ?_⟩⟩
  · exact fun b hb => Option.some.inj hb ▸ by decide
  · exact fun b hb => Option.some.inj hb ▸ by decide

/-- `HTTP/1.1 200 OK` and the two fields, into a ring of 64. -/
theorem write_head_parses_ok : ∃ c' : Htconn Ring.buffer, ∃ code list,
    htsWriteHead http11 200 [79, 75] sampleHeaders (lineConn []) = (.ok, c') ∧
    parse Htp.responseHead (Ring.buffer.unread c'.output) =
      some (.str .version http11 :: .num .status code :: list, []) ∧
    (code.toNat : ℤ) = 200 ∧ hthFields list = some sampleHeaders := by
  obtain ⟨code, list, hparse, hcode, hlist⟩ := write_head_parses Ring.buffer http11 [79, 75] 200
    sampleHeaders (lineConn []) _ rfl (by omega) (by omega) (by decide)
    (List.all_eq_true.mp (by decide)) (by decide) sampleHeaders_isHeader rfl rfl
  exact ⟨_, code, list, rfl, hparse, hcode, hlist⟩

end Lawd
