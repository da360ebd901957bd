import Lawd.HeaderField
import Lawd.Response

/-!
# Echoing a request

A handler may send back what it has received. The version and the fields of a
request have no line end in them, so a response with any of them is read as one
field for each, with the value that was received but for the blanks in front of it.
-/
namespace Lawd

open Library Library.Peg

/-- A field as a request can have it. -/
structure IsReceived (field : List UInt8 × List UInt8) : Prop where
  name : parse Htp.token field.1 = some ([], [])
  length : field.2.length ≤ 1023
  text : ∀ b ∈ field.2, isText b = true

/-- What the other end makes of a field: the name, and the value without some of the
blanks in front of it. -/
def Echoes (field field' : List UInt8 × List UInt8) : Prop :=
  field'.1 = field.1 ∧ ∃ blanks, (∀ b ∈ blanks, blank b = true) ∧ field.2 = blanks ++ field'.2

variable {field : List UInt8 × List UInt8}

theorem Echoes.eq {field' : List UInt8 × List UInt8} (h : Echoes field field')
    (hbegins : ∀ b ∈ field.2.head?, blank b = false) : field' = field := by
  obtain ⟨hname, blanks, hblank, hvalue⟩ := h
  cases blanks with
  | nil => exact Prod.ext hname hvalue.symm
  | cons b blanks =>
    have hnot := hbegins b (by rw [hvalue]; rfl)
    rw [hblank b List.mem_cons_self] at hnot
    cases hnot

theorem received_of_parse {text : List UInt8} {nodes : List Node}
    (hp : parse Htp.parseField text = some (nodes, [])) :
    ∃ field, nodes = [fieldNode field] ∧ IsReceived field := by
  obtain ⟨items, hitems, rfl⟩ := parse_cap hp
  obtain ⟨vs₁, r₁, vs₂, h₁, hows, rfl⟩ := parse_seq.mp hitems
  obtain ⟨vs₃, r₃, vs₄, h₃, hvalue, rfl⟩ := parse_seq.mp h₁
  obtain ⟨vs₅, r₅, vs₆, h₅, hows', rfl⟩ := parse_seq.mp h₃
  obtain ⟨vs₇, r₇, vs₈, hname, hcolon, rfl⟩ := parse_seq.mp h₅
  obtain ⟨name, -, hd⟩ := derives_of_parse hname
  obtain ⟨value, -, hd'⟩ := derives_of_parse hvalue
  obtain rfl := silent_nil (g := Htp.ows) rfl hows
  obtain rfl := silent_nil (g := Htp.ows) rfl hows'
  obtain rfl := silent_nil (g := ch ':') rfl hcolon
  cases hd with
  | cap hd =>
    cases hd' with
    | cap hd' =>
      obtain ⟨-, -, hlen, htext⟩ := derives_rep_set.mp hd'
      obtain rfl := hd.silent rfl
      have hexact : Exact (fun r => r = []) Htp.token :=
        Exact.rep_of_any exact_set fun _ r hr => by rw [hr]; rfl
      have htoken := hexact _ _ [] hd rfl
      rw [List.append_nil] at htoken
      exact ⟨(name, value), rfl, htoken, hlen, htext⟩

theorem isLine_echo (h : IsReceived field) : ∃ field', Echoes field field' ∧
    IsLine 0x0D Htp.parseField (headerText field.1 field.2, [fieldNode field']) := by
  obtain ⟨⟨vs, rest⟩, hspace⟩ := parse_rep_some 127 (.alt Htp.sp Htp.htab) (' '.toUInt8 :: field.2)
  obtain ⟨t, ht, rfl, -, hblank, hstop⟩ := parse_ows hspace
  obtain ⟨blanks, rfl, hvalue⟩ : ∃ blanks, t = ' '.toUInt8 :: blanks ∧
      field.2 = blanks ++ rest := by
    cases t with
    | nil =>
      rcases hstop with hfull | hnext
      · cases hfull
      · have hnot := hnext ' '.toUInt8 (by rw [← List.nil_append rest, ← ht]; rfl)
        cases hnot
    | cons b t =>
      obtain ⟨rfl, hrest⟩ := List.cons.inj ht
      exact ⟨t, rfl, hrest⟩
  have hlen : rest.length ≤ 1023 := by
    have hle := h.length
    rw [hvalue, List.length_append] at hle
    omega
  have htext : ∀ b ∈ rest, isText b = true := fun b hb =>
    h.text b (by rw [hvalue]; exact List.mem_append_right _ hb)
  have hp := parse_headerText h.name hspace hlen htext
  refine ⟨(field.1, rest), ⟨rfl, blanks, fun b hb => hblank b (List.mem_cons_of_mem _ hb), hvalue⟩,
    (derives_of_full hp).avoids avoids_parseField, hp⟩

/-- A response head with received fields is accepted, with an echo of each, up to
what follows it. -/
theorem parse_echo {version reason : List UInt8} {n : ℕ}
    (hversion : parse Htp.httpVersion version = some ([], [])) (hlow : 100 ≤ n) (hhigh : n ≤ 999)
    (hlen : reason.length ≤ 127) (htext : ∀ b ∈ reason, isText b = true)
    {fields : List (List UInt8 × List UInt8)} (hcount : fields.length ≤ 127)
    (hfields : ∀ field ∈ fields, IsReceived field) (u : List UInt8) :
    ∃ fields', List.Forall₂ Echoes fields fields' ∧
      parse Htp.responseHead (headText version n reason fields ++ u) =
        some (.str .version version :: .num .status (UInt32.ofNat n) ::
          fields'.map fieldNode, u) := by
  obtain ⟨fields', lines, hechoes, hlength, hended, hcaptured, hlines⟩ :
      ∃ fields' lines, List.Forall₂ Echoes fields fields' ∧ lines.length = fields.length ∧
        ended 0x0D 0x0A lines =
          fields.flatMap (fun field => headerText field.1 field.2 ++ [0x0D, 0x0A]) ∧
        captured lines = fields'.map fieldNode ∧ ∀ l ∈ lines, IsLine 0x0D Htp.parseField l := by
    clear hcount
    induction fields with
    | nil => exact ⟨[], [], .nil, rfl, rfl, rfl, fun l hl => by cases hl⟩
    | cons field fields ih =>
      obtain ⟨hfield, hfields⟩ := List.forall_mem_cons.mp hfields
      obtain ⟨field', hecho, hline⟩ := isLine_echo hfield
      obtain ⟨fields', lines, hechoes, hlength, hended, hcaptured, hlines⟩ := ih hfields
      refine ⟨field' :: fields', _ :: lines, .cons hecho hechoes, ?_, ?_, ?_,
        List.forall_mem_cons.mpr ⟨hline, hlines⟩⟩
      · rw [List.length_cons, List.length_cons, hlength]
      · rw [ended] at hended ⊢
        rw [List.flatMap_cons, List.flatMap_cons, hended]
      · rw [captured] at hcaptured ⊢
        rw [List.flatMap_cons, hcaptured]
        rfl
  have hp := parse_headLines hversion hlow hhigh hlen htext (hlength.trans_le hcount) hlines u
  rw [hended, hcaptured] at hp
  refine ⟨fields', hechoes, ?_⟩
  simpa only [headText, List.append_assoc, List.cons_append, List.nil_append] using hp

/-- The version of a request line can be sent back. -/
theorem version_of_parse {text rest : List UInt8} {nodes : List Node} {reqline : HtsReqline}
    (hp : parse requestBody text = some (nodes, rest))
    (hline : reqlineFromAst nodes = some reqline) :
    parse Htp.httpVersion reqline.version = some ([], []) := by
  obtain ⟨vs₁, r₁, vs₂, h₁, hversion, rfl⟩ := parse_seq.mp hp
  obtain ⟨vs₃, r₃, vs₄, h₃, hsp, rfl⟩ := parse_seq.mp h₁
  obtain ⟨vs₅, r₅, vs₆, h₅, htarget, rfl⟩ := parse_seq.mp h₃
  obtain ⟨vs₇, r₇, vs₈, hmethod, hsp', rfl⟩ := parse_seq.mp h₅
  obtain ⟨_, -, rfl⟩ := parse_cap hmethod
  obtain ⟨form, parts, rfl, -⟩ := requestTarget_captures htarget
  obtain rfl := silent_nil (g := Htp.sp) rfl hsp
  obtain rfl := silent_nil (g := Htp.sp) rfl hsp'
  obtain ⟨version, -, hd⟩ := derives_of_parse hversion
  cases hd with
  | cap hd =>
    obtain ⟨uri, -, rfl⟩ := Option.map_eq_some_iff.mp hline
    obtain rfl := hd.silent rfl
    have hparsed := exact_httpVersion _ _ [] hd trivial
    rwa [List.append_nil] at hparsed

theorem received_of_readHead {s : List UInt8} {reqline : HtsReqline}
    {fields : List (List UInt8 × List UInt8)} (hread : readHead s = some (reqline, fields)) :
    parse Htp.httpVersion reqline.version = some ([], []) ∧ ∀ field ∈ fields, IsReceived field := by
  obtain ⟨nodes, line, ls, hparts, hline, hfields⟩ := headParts_of_readHead hread
  refine ⟨version_of_parse hparts.line.parse hline, fun field hfield => ?_⟩
  obtain ⟨node, hnode, hnodeField⟩ := exists_of_forall₂ (forall₂_of_mapM hfields) hfield
  obtain ⟨l, hl, hmem⟩ := List.mem_flatMap.mp hnode
  obtain ⟨received, hnodes, hreceived⟩ := received_of_parse (hparts.lines l hl).parse
  rw [hnodes] at hmem
  obtain rfl := List.mem_singleton.mp hmem
  obtain rfl : received = field := Option.some.inj hnodeField
  exact hreceived

/-- A response to any request that is accepted, with the version of the request and
with fields of it among its own, is read as one field for each that was written:
the ones of the request without blanks in front of the value, or as they are if
there are none. -/
theorem echoed_head_parses (B : ByteBuffer) {s reason : List UInt8} {reqline : HtsReqline}
    {fields echoed : List (List UInt8 × List UInt8)} {status : ℤ} {c c' : Htconn B}
    (hread : readHead s = some (reqline, fields)) (hlow : 100 ≤ status) (hhigh : status ≤ 999)
    (hlen : reason.length ≤ 127) (htext : ∀ b ∈ reason, isText b = true)
    (hcount : echoed.length ≤ 127) (hechoed : ∀ field ∈ echoed, field ∈ fields ∨ IsHeader field)
    (hempty : B.unread c.output = [])
    (hwrite : htsWriteHead reqline.version status reason echoed c = (.ok, c')) :
    ∃ code list fields', parse Htp.responseHead (B.unread c'.output) =
        some (.str .version reqline.version :: .num .status code :: list, []) ∧
      (code.toNat : ℤ) = status ∧ hthFields list = some fields' ∧
      List.Forall₂ Echoes echoed fields' ∧
      ((∀ field ∈ echoed, ∀ b ∈ field.2.head?, blank b = false) → fields' = echoed) := by
  lift status to ℕ using by omega
  have hlow' : 100 ≤ status := by omega
  have hhigh' : status ≤ 999 := by omega
  obtain ⟨hversion, hfields⟩ := received_of_readHead hread
  have hreceived : ∀ field ∈ echoed, IsReceived field := fun field hfield =>
    (hechoed field hfield).elim (hfields field) fun h => ⟨h.name, h.length, h.text⟩
  have htail := emits_htsWriteHead reqline.version status reason echoed c (by rw [hwrite])
  simp only [hwrite, hempty, List.nil_append] at htail
  obtain ⟨fields', hechoes, hparse⟩ :=
    parse_echo hversion hlow' hhigh' hlen htext hcount hreceived []
  refine ⟨UInt32.ofNat status, fields'.map fieldNode, fields', ?_, ?_,
    hthFields_fieldNode fields', hechoes, fun hbegins => ?_⟩
  · rwa [htail, ← List.append_nil (headText _ _ _ _)]
  · rw [UInt32.toNat_ofNat', Nat.mod_eq_of_lt (by omega)]
  · clear hparse htail hwrite hcount hechoed hreceived
    induction hechoes with
    | nil => rfl
    | cons hecho _ ih =>
      obtain ⟨hfirst, hrest⟩ := List.forall_mem_cons.mp hbegins
      rw [hecho.eq hfirst, ih hrest]

/-- The field of the request with one field is sent back to it. -/
theorem echoed_head_parses_one : ∃ c' : Htconn Ring.buffer, ∃ code list fields',
    htsWriteHead http11 200 (['O', 'K'].map Char.toUInt8) [([65], [98])] (lineConn []) = (.ok, c') ∧
    parse Htp.responseHead (Ring.buffer.unread c'.output) =
      some (.str .version http11 :: .num .status code :: list, []) ∧
    (code.toNat : ℤ) = 200 ∧ hthFields list = some fields' ∧ fields' = [([65], [98])] := by
  have hread : readHead (71 :: getLine ++ oneField) =
      some (⟨[71, 69, 84], ⟨none, none, none, some [47], none⟩, http11⟩, [([65], [98])]) := rfl
  obtain ⟨code, list, fields', hparse, hcode, hlist, -, heq⟩ := echoed_head_parses Ring.buffer hread
    (by omega) (by omega) (by decide) (List.all_eq_true.mp (by decide)) (by decide)
    (fun field hfield => .inl hfield) rfl
    (rfl : htsWriteHead http11 200 (['O', 'K'].map Char.toUInt8) [([65], [98])] (lineConn []) =
      (.ok, _))
  refine ⟨_, code, list, fields', rfl, hparse, hcode, hlist, heq fun field hfield b hb => ?_⟩
  rw [List.mem_singleton.mp hfield] at hb
  obtain rfl := Option.some.inj hb
  decide

end Lawd
