import Lawd.Base
import Lawd.Library.Pieces
import Lawd.UriLanguage

/-!
# Elements of queries and segments of paths

`law_uri_parse_query` and `law_uri_parse_path` report success on a match of the
front of the text. The rest is lost where two separators meet, or an element has
a second `=`, or is longer than its rule.
-/
namespace Lawd

open Library Library.Peg

namespace UriPar

/-! ### The rules -/

def queryReserved (b : UInt8) : Bool := oneOf ['&', '='] b

def queryChar : Rule := .set fun b => isGraph b && !queryReserved b

def queryToken : Rule := readTerm .token (.rep 1 127 queryChar)

def queryElem : Rule :=
  readExp .elem (.seq queryToken (.rep 0 1 (.seq (ch '=') (.rep 0 1 queryToken))))

def queryList : Rule := .rep 0 1 (.seq queryElem (.rep 0 127 (.seq (ch '&') queryElem)))

def capSegNz : Rule := readTerm .seg segmentNz

def pathList : Rule := .seq (.rep 0 2 fslash) (.rep 0 127 (.seq capSegNz (.rep 0 1 fslash)))

end UriPar

/-- How `pgc_lang_parse` fails. The code for a text that is refused is the parser's. -/
inductive LangErr where
  | oom
  | refused
  deriving DecidableEq, Repr

/-- `pgc_lang_parse`, told whether its heap runs out of memory: a match of the
front of the buffer is a success, and the rest stays in the buffer. -/
def langParse (parser : Rule) (oom : Bool) (buffer : List UInt8) :
    Except LangErr (List Node × List UInt8) :=
  if oom then .error .oom
  else
    match parse parser buffer with
    | some out => .ok out
    | none => .error .refused

/-- `law_uri_parse_query`, which returns the list of `law_uri_query_t`. -/
def uriParseQuery (oom : Bool) (text : List UInt8) : Except LangErr (List Node) :=
  (langParse UriPar.queryList oom text).map (·.1)

/-- The name and the value that `law_uri_query_next` gives for an element. -/
def uriQueryElem : Node → Option (List UInt8 × List UInt8)
  | .lst _ [.str _ name] => some (name, [])
  | .lst _ (.str _ name :: .str _ value :: _) => some (name, value)
  | _ => none

/-- The elements that an iteration with `law_uri_query_next` gives. -/
def uriQueryElems (query : List Node) : Option (List (List UInt8 × List UInt8)) :=
  query.mapM uriQueryElem

/-- `law_uri_path_t`. -/
structure UriPath where
  list : List Node
  count : ℕ
  deriving Repr

/-- `law_uri_parse_path`. -/
def uriParsePath (oom : Bool) (text : List UInt8) : Except LangErr UriPath :=
  (langParse UriPar.pathList oom text).map fun out => ⟨out.1, out.1.length⟩

/-- The segment that `law_uri_path_next` gives for a node. -/
def uriPathSeg : Node → Option (List UInt8)
  | .str _ text => some text
  | _ => none

/-- The segments that an iteration with `law_uri_path_next` gives. -/
def uriPathSegs (path : UriPath) : Option (List (List UInt8)) := path.list.mapM uriPathSeg

/-- `law_uri_path_at`, where an index below 0 counts from the end. -/
def uriPathAt (path : UriPath) (index : ℤ) : Option (List UInt8) :=
  let i := if index < 0 then (path.count + index) % 2 ^ 64 else index
  path.list[i.toNat]? >>= uriPathSeg

/-! ### Elements -/

/-- The ways of writing an element: its name, with `=` and its value, where an
empty value may be left out. -/
inductive Writes : List UInt8 × List UInt8 → List UInt8 → Prop
  | bare (name : List UInt8) : Writes (name, []) name
  | valued (name value : List UInt8) : Writes (name, value) (name ++ '='.toUInt8 :: value)

/-- The elements, joined by `&`, are the text. -/
def QueryWhole (elems : List (List UInt8 × List UInt8)) (text : List UInt8) : Prop :=
  ∃ pieces, List.Forall₂ Writes elems pieces ∧ text = ['&'.toUInt8].intercalate pieces

/-- Whatever `law_uri_parse_query` returns accounts for the whole text. -/
def KeepsQuery (text : List UInt8) : Prop := ∀ oom query, uriParseQuery oom text = .ok query →
  ∃ elems, uriQueryElems query = some elems ∧ QueryWhole elems text

/-- A piece that is one element: a name of 1 to 127 bytes, and behind it at most
one `=` with at most 127 bytes. -/
def ElemFits (piece : List UInt8) : Prop :=
  match piece.splitOn '='.toUInt8 with
  | [name] => 1 ≤ name.length ∧ name.length ≤ 127
  | [name, value] => 1 ≤ name.length ∧ name.length ≤ 127 ∧ value.length ≤ 127
  | _ => False

instance (piece : List UInt8) : Decidable (ElemFits piece) := by
  unfold ElemFits
  split <;> infer_instance

/-- The text is empty, or all its pieces between `&` are elements. -/
def QueryFits (text : List UInt8) : Prop :=
  text = [] ∨ ∀ piece ∈ text.splitOn '&'.toUInt8, ElemFits piece

/-! ### Visible characters -/

theorem isGraph_of_range {lo hi b : UInt8} (hlo : 0x21 ≤ lo) (hhi : hi ≤ 0x7E)
    (h : (decide (lo ≤ b) && decide (b ≤ hi)) = true) : isGraph b = true := by
  simp only [Bool.and_eq_true, decide_eq_true_eq] at h
  simp only [isGraph, Bool.and_eq_true, decide_eq_true_eq]
  exact ⟨UInt8.le_trans hlo h.1, UInt8.le_trans h.2 hhi⟩

theorem isGraph_of_isDigit {b : UInt8} (h : isDigit b = true) : isGraph b = true :=
  isGraph_of_range (by decide) (by decide) h

theorem isGraph_of_isAlpha {b : UInt8} (h : isAlpha b = true) : isGraph b = true := by
  obtain h | h := Bool.or_eq_true_iff.mp h
  · exact isGraph_of_range (by decide) (by decide) h
  · exact isGraph_of_range (by decide) (by decide) h

theorem isGraph_of_isXdigit {b : UInt8} (h : isXdigit b = true) : isGraph b = true := by
  obtain h | h := Bool.or_eq_true_iff.mp h
  · obtain h | h := Bool.or_eq_true_iff.mp h
    · exact isGraph_of_isDigit h
    · exact isGraph_of_range (by decide) (by decide) h
  · exact isGraph_of_range (by decide) (by decide) h

theorem isGraph_of_oneOf {cs : List Char} {b : UInt8} (hcs : cs.all (isGraph ·.toUInt8) = true)
    (h : oneOf cs b = true) : isGraph b = true := by
  obtain ⟨c, hc, heq⟩ := List.any_eq_true.mp h
  rw [← beq_iff_eq.mp heq]
  exact List.all_eq_true.mp hcs c hc

namespace UriPar

variable {t r : List UInt8} {vs : List Node}

theorem over_ch {c : Char} (hc : isGraph c.toUInt8 = true) : Over (isGraph · = true) (ch c) := by
  intro b hb
  rwa [beq_iff_eq.mp hb]

theorem over_pchar : Over (isGraph · = true) pchar := by
  have hunreserved : ∀ b, unreserved b = true → isGraph b = true := by
    intro b hb
    simp only [unreserved, Bool.or_eq_true] at hb
    obtain (hb | hb) | hb := hb
    · exact isGraph_of_isAlpha hb
    · exact isGraph_of_isDigit hb
    · exact isGraph_of_oneOf rfl hb
  have hdelims : ∀ b, subDelims b = true → isGraph b = true := by
    intro b hb
    obtain hb | hb := Bool.or_eq_true_iff.mp hb
    · exact isGraph_of_oneOf rfl hb
    · rw [beq_iff_eq.mp hb]
      rfl
  have hpct : Over (isGraph · = true) pctEncoded :=
    ⟨⟨over_ch rfl, fun _ => isGraph_of_isXdigit⟩, fun _ => isGraph_of_isXdigit⟩
  exact ⟨⟨⟨⟨hunreserved, hpct⟩, hdelims⟩, over_ch rfl⟩, over_ch rfl⟩

theorem over_query : Over (isGraph · = true) query := ⟨⟨over_pchar, over_ch rfl⟩, over_ch rfl⟩

theorem count_query (hd : Derives query t vs) : t.count '&'.toUInt8 ≤ 127 := by
  obtain ⟨ps, -, hlen, hps, rfl, -⟩ := hd.copies
  have hunit : ∀ p ∈ ps, p.1.count '&'.toUInt8 ≤ 1 := by
    intro p hp
    have hset : ∀ {q : UInt8 → Bool}, Derives (set q : Rule) p.1 p.2 →
        p.1.count '&'.toUInt8 ≤ 1 := fun hd => List.count_le_length.trans hd.length_le
    cases hps p hp with
    | left hd =>
      cases hd with
      | left hd =>
        cases hd with
        | left hd =>
          cases hd with
          | left hd =>
            cases hd with
            | left hd =>
              cases hd with
              | left hd => exact hset hd
              | right hd => rw [List.count_eq_zero.mpr (hd.avoids rfl)]; omega
            | right hd => exact hset hd
          | right hd => exact hset hd
        | right hd => exact hset hd
      | right hd => exact hset hd
    | right hd => exact hset hd
  have hsum : ∀ qs : List (List UInt8 × List Node), (∀ p ∈ qs, p.1.count '&'.toUInt8 ≤ 1) →
      (qs.flatMap (·.1)).count '&'.toUInt8 ≤ qs.length := by
    intro qs hqs
    induction qs with
    | nil => simp
    | cons q qs ih =>
      have hq := hqs q List.mem_cons_self
      have hrest := ih fun p hp => hqs p (List.mem_cons_of_mem _ hp)
      rw [List.flatMap_cons, List.count_append, List.length_cons]
      omega
  exact (hsum ps hunit).trans hlen

/-! ### Parsed elements -/

theorem exact_queryToken : Exact (Followed ['&', '=']) queryToken :=
  (exact_set.rep_of_any fun _ => parse_none_of_followed rfl rfl).cap

theorem exact_queryElem : Exact (Followed ['&']) queryElem := by
  have hvalue : Exact (Followed ['&']) (.rep 0 1 queryToken) :=
    (exact_queryToken.mono (Followed.mono rfl)).opt (parse_none_of_followed rfl rfl)
  have hassign : Exact (Followed ['&']) (.rep 0 1 (.seq (ch '=') (.rep 0 1 queryToken))) :=
    ((exact_ch _ _).seq_of_any hvalue).opt (parse_none_of_followed rfl rfl)
  refine (exact_queryToken.seq hassign fun t vs r hd hr => ?_).cap
  exact hd.heads_append (mem_of_first (by simp)) fun _ => Followed.mono rfl r hr

theorem exact_queryList : Exact (Followed []) queryList := by
  have hmore : Exact (Followed []) (.rep 0 127 (.seq (ch '&') queryElem)) := by
    have hone : Exact (Followed ['&']) (.seq (ch '&') queryElem) :=
      (exact_ch _ _).seq_of_any exact_queryElem
    refine hone.rep (fun t vs r hd _ => ?_) (Followed.mono rfl) fun _ => ?_
    · exact hd.heads_append (mem_of_first List.mem_cons_self) fun h => by cases h
    · exact parse_none_of_followed rfl rfl
  refine Exact.opt (exact_queryElem.seq hmore fun t vs r hd hr => ?_)
    (parse_none_of_followed rfl rfl)
  exact hd.heads_append (mem_of_first List.mem_cons_self) fun _ => Followed.mono rfl r hr

end UriPar

/-- The names and the values that are parsed: the name is not empty, and neither
is too long or has a separator. -/
structure IsElem (e : List UInt8 × List UInt8) : Prop where
  nonempty : 1 ≤ e.1.length
  name_le : e.1.length ≤ 127
  value_le : e.2.length ≤ 127
  name_assign : '='.toUInt8 ∉ e.1
  value_assign : '='.toUInt8 ∉ e.2
  name_amp : '&'.toUInt8 ∉ e.1
  value_amp : '&'.toUInt8 ∉ e.2

theorem IsElem.writes {e : List UInt8 × List UInt8} {piece : List UInt8} (he : IsElem e)
    (hw : Writes e piece) : ElemFits piece ∧ '&'.toUInt8 ∉ piece := by
  cases hw with
  | bare name =>
    refine ⟨?_, he.name_amp⟩
    rw [ElemFits, List.splitOn_eq_singleton he.name_assign]
    exact ⟨he.nonempty, he.name_le⟩
  | valued name value =>
    refine ⟨?_, ?_⟩
    · rw [ElemFits, List.splitOn_append_cons_self_of_not_mem he.name_assign,
        List.splitOn_eq_singleton he.value_assign]
      exact ⟨he.nonempty, he.name_le, he.value_le⟩
    · rw [List.mem_append, List.mem_cons]
      rintro (h | h | h)
      · exact he.name_amp h
      · cases h
      · exact he.value_amp h

/-- A piece that fits is a name, or a name and a value. -/
theorem ElemFits.cases {piece : List UInt8} (h : ElemFits piece) :
    (1 ≤ piece.length ∧ piece.length ≤ 127 ∧ '='.toUInt8 ∉ piece) ∨
    ∃ name value, piece = name ++ '='.toUInt8 :: value ∧ 1 ≤ name.length ∧ name.length ≤ 127 ∧
      value.length ≤ 127 ∧ '='.toUInt8 ∉ name ∧ '='.toUInt8 ∉ value := by
  have hjoin : ['='.toUInt8].intercalate (piece.splitOn '='.toUInt8) = piece :=
    List.intercalate_splitOn _
  have hcount := length_splitOn '='.toUInt8 piece
  unfold ElemFits at h
  split at h
  · next name hsplit =>
    rw [hsplit, List.length_singleton] at hcount
    rw [hsplit, List.intercalate_singleton] at hjoin
    subst hjoin
    exact .inl ⟨h.1, h.2, List.count_eq_zero.mp (by omega)⟩
  · next name value hsplit =>
    rw [hsplit, List.length_cons, List.length_singleton] at hcount
    rw [hsplit, intercalate_cons, led_cons, led_nil, List.append_nil] at hjoin
    subst hjoin
    rw [List.count_append, List.count_cons_self] at hcount
    exact .inr ⟨name, value, rfl, h.1, h.2.1, h.2.2, List.count_eq_zero.mp (by omega),
      List.count_eq_zero.mp (by omega)⟩
  · exact h.elim

namespace UriPar

variable {t r : List UInt8} {vs : List Node}

theorem derives_queryToken : Derives queryToken t vs ↔ vs = [.str .token t] ∧ 1 ≤ t.length ∧
    t.length ≤ 127 ∧ ∀ b ∈ t, (isGraph b && !queryReserved b) = true := by
  constructor
  · intro hd
    cases hd with
    | cap hd =>
      obtain ⟨-, h⟩ := derives_rep_set.mp hd
      exact ⟨rfl, h⟩
  · rintro ⟨rfl, h⟩
    exact .cap (derives_rep_set.mpr ⟨rfl, h⟩)

theorem not_mem_of_queryChars {c : Char} (hc : queryReserved c.toUInt8 = true)
    (h : ∀ b ∈ t, (isGraph b && !queryReserved b) = true) : c.toUInt8 ∉ t := by
  intro hmem
  have hb := h _ hmem
  rw [hc] at hb
  simp at hb

theorem elem_of_derives (hd : Derives queryElem t vs) : ∃ node e, vs = [node] ∧
    uriQueryElem node = some e ∧ IsElem e ∧ Writes e t := by
  cases hd with
  | cap hd =>
    cases hd with
    | @seq _ _ name u _ _ htoken hd =>
      obtain ⟨rfl, hlo, hhi, hname⟩ := derives_queryToken.mp htoken
      have hamp := not_mem_of_queryChars (c := '&') rfl hname
      have hassign := not_mem_of_queryChars (c := '=') rfl hname
      have hbare : IsElem (name, []) := ⟨hlo, hhi, by simp, hassign, by simp, hamp, by simp⟩
      cases hd with
      | none =>
        refine ⟨_, _, rfl, rfl, hbare, ?_⟩
        rw [List.append_nil]
        exact .bare name
      | copy hd hrest =>
        cases hrest
        cases hd with
        | seq hmark hd =>
          obtain rfl := derives_ch hmark
          obtain rfl := hmark.silent rfl
          cases hd with
          | none => exact ⟨_, _, rfl, rfl, hbare, .valued name []⟩
          | @copy _ _ _ value _ _ _ htoken hrest =>
            cases hrest
            obtain ⟨rfl, -, hhi', hvalue⟩ := derives_queryToken.mp htoken
            refine ⟨_, (name, value), rfl, rfl, ?_, ?_⟩
            · exact ⟨hlo, hhi, hhi', hassign, not_mem_of_queryChars (c := '=') rfl hvalue, hamp,
                not_mem_of_queryChars (c := '&') rfl hvalue⟩
            · rw [List.append_nil, List.append_nil]
              exact .valued name value

/-- Elements with the separator in front of each. -/
theorem elems_of_copies {ps : List (List UInt8 × List Node)}
    (hps : ∀ p ∈ ps, Derives (.seq (ch '&') queryElem) p.1 p.2) :
    ∃ es pieces, (ps.flatMap (·.2)).mapM uriQueryElem = some es ∧ (∀ e ∈ es, IsElem e) ∧
      List.Forall₂ Writes es pieces ∧ ps.flatMap (·.1) = led '&'.toUInt8 pieces := by
  induction ps with
  | nil => exact ⟨[], [], rfl, by simp, .nil, rfl⟩
  | cons p ps ih =>
    obtain ⟨es, pieces, hnodes, hes, hw, htext⟩ := ih fun q hq => hps q (List.mem_cons_of_mem _ hq)
    obtain ⟨u, us⟩ := p
    cases hps _ List.mem_cons_self with
    | seq hmark hd =>
      obtain rfl := derives_ch hmark
      obtain rfl := hmark.silent rfl
      obtain ⟨node, e, rfl, hnode, he, hwrites⟩ := elem_of_derives hd
      refine ⟨e :: es, _ :: pieces, ?_, ?_, .cons hwrites hw, ?_⟩
      · rw [List.flatMap_cons]
        simp [List.mapM_cons, hnode, hnodes]
      · intro e' he'
        obtain rfl | he' := List.mem_cons.mp he'
        · exact he
        · exact hes e' he'
      · rw [List.flatMap_cons, htext, led_cons]
        simp

theorem elems_of_derives (hd : Derives queryList t vs) : ∃ es pieces,
    uriQueryElems vs = some es ∧ (∀ e ∈ es, IsElem e) ∧ List.Forall₂ Writes es pieces ∧
      t = ['&'.toUInt8].intercalate pieces := by
  cases hd with
  | none => exact ⟨[], [], rfl, by simp, .nil, rfl⟩
  | copy hd hrest =>
    cases hrest
    cases hd with
    | seq hd hmore =>
      obtain ⟨node, e, rfl, hnode, he, hwrites⟩ := elem_of_derives hd
      obtain ⟨ps, -, -, hps, rfl, rfl⟩ := hmore.copies
      obtain ⟨es, pieces, hnodes, hes, hw, htext⟩ := elems_of_copies hps
      refine ⟨e :: es, _ :: pieces, ?_, ?_, .cons hwrites hw, ?_⟩
      · rw [uriQueryElems]
        simp [List.mapM_cons, hnode, hnodes]
      · intro e' he'
        obtain rfl | he' := List.mem_cons.mp he'
        · exact he
        · exact hes e' he'
      · rw [intercalate_cons, htext, List.append_nil]

theorem generates_of_fits (hgraph : ∀ b ∈ t, isGraph b = true) (hamp : '&'.toUInt8 ∉ t)
    (h : ElemFits t) : Generates queryElem t := by
  have hchars : ∀ {u : List UInt8}, u ⊆ t → '='.toUInt8 ∉ u →
      ∀ b ∈ u, (isGraph b && !queryReserved b) = true := by
    intro u hu hassign b hb
    have hne : b ≠ '&'.toUInt8 := fun h => hamp (h ▸ hu hb)
    have hne' : b ≠ '='.toUInt8 := fun h => hassign (h ▸ hb)
    simp [hgraph b (hu hb), queryReserved, oneOf, hne.symm, hne'.symm]
  obtain ⟨hlo, hhi, hassign⟩ | ⟨name, value, rfl, hlo, hhi, hhi', hassign, hassign'⟩ := h.cases
  · have hname := derives_queryToken.mpr ⟨rfl, hlo, hhi, hchars (List.Subset.refl t) hassign⟩
    have hd : Derives queryElem (t ++ []) _ := .cap (.seq hname .none)
    rw [List.append_nil] at hd
    exact ⟨_, hd⟩
  · have hname := derives_queryToken.mpr
      ⟨rfl, hlo, hhi, hchars (List.subset_append_left _ _) hassign⟩
    have hvalue : ∃ vs, Derives (.rep 0 1 queryToken) value vs := by
      by_cases hempty : value = []
      · rw [hempty]
        exact ⟨[], .none⟩
      · have hvalue := derives_queryToken.mpr ⟨rfl, List.length_pos_iff.mpr hempty, hhi',
          hchars (u := value) (by intro b hb; simp [hb]) hassign'⟩
        have hd : Derives (.rep 0 1 queryToken) (value ++ []) _ := .copy hvalue .none
        rw [List.append_nil] at hd
        exact ⟨_, hd⟩
    obtain ⟨vs, hvalue⟩ := hvalue
    have hd : Derives queryElem (name ++ ((['='.toUInt8] ++ value) ++ [])) _ :=
      .cap (.seq hname (.copy (.seq (derives_ch_self '=') hvalue) .none))
    rw [List.append_nil] at hd
    exact ⟨_, hd⟩

end UriPar

variable {text : List UInt8} {query : List Node}

theorem langParse_ok {parser : Rule} {oom : Bool} {out : List Node × List UInt8}
    (h : langParse parser oom text = .ok out) : parse parser text = some out := by
  unfold langParse at h
  split_ifs at h
  split at h
  · next out' hp =>
    rw [hp, Except.ok.inj h]
  · cases h

theorem langParse_of_parse {parser : Rule} {out : List Node × List UInt8}
    (h : parse parser text = some out) : langParse parser false text = .ok out := by
  simp only [langParse, h, Bool.false_eq_true, if_false]

theorem except_map_ok {α β : Type} {f : α → β} {e : Except LangErr α} {b : β}
    (h : e.map f = .ok b) : ∃ a, e = .ok a ∧ f a = b := by
  cases e with
  | error e => cases h
  | ok a => exact ⟨a, rfl, Except.ok.inj h⟩

theorem uriParseQuery_ok {oom : Bool} (h : uriParseQuery oom text = .ok query) :
    ∃ rest, parse UriPar.queryList text = some (query, rest) := by
  obtain ⟨out, hout, rfl⟩ := except_map_ok h
  exact ⟨out.2, langParse_ok hout⟩

theorem uriParseQuery_succeeds (text : List UInt8) :
    ∃ query, uriParseQuery false text = .ok query := by
  obtain ⟨out, hout⟩ : ∃ out, parse UriPar.queryList text = some out := parse_rep_some 1 _ text
  refine ⟨out.1, ?_⟩
  rw [uriParseQuery, langParse_of_parse hout]
  rfl

theorem queryFits_of_keeps (h : KeepsQuery text) : QueryFits text := by
  obtain ⟨query, hquery⟩ := uriParseQuery_succeeds text
  obtain ⟨rest, hp⟩ := uriParseQuery_ok hquery
  obtain ⟨t, -, hd⟩ := derives_of_parse hp
  obtain ⟨es, -, hes, helem, -, -⟩ := UriPar.elems_of_derives hd
  obtain ⟨es', hes', pieces, hw, htext⟩ := h false query hquery
  rw [hes] at hes'
  obtain rfl := Option.some.inj hes'
  cases pieces with
  | nil => exact .inl htext
  | cons piece pieces =>
    refine .inr ?_
    have hfits : ∀ p ∈ piece :: pieces, ElemFits p ∧ '&'.toUInt8 ∉ p := by
      intro p hp
      obtain ⟨e, he, hwrites⟩ := exists_of_forall₂ hw hp
      exact (helem e he).writes hwrites
    rw [htext, List.splitOn_intercalate _ (fun p hp => (hfits p hp).2) (List.cons_ne_nil _ _)]
    exact fun p hp => (hfits p hp).1

theorem keepsQuery_of_fits (hquery : Generates UriPar.query text) (h : QueryFits text) :
    KeepsQuery text := by
  have hgenerates : Generates UriPar.queryList text := by
    obtain rfl | hfits := h
    · exact ⟨[], .none⟩
    · obtain ⟨vs, hd⟩ := hquery
      have hgraph := hd.over UriPar.over_query
      have hcount := UriPar.count_query hd
      have hlength := length_splitOn '&'.toUInt8 text
      have hjoin : ['&'.toUInt8].intercalate (text.splitOn '&'.toUInt8) = text :=
        List.intercalate_splitOn _
      obtain ⟨piece, pieces, hsplit⟩ :=
        List.exists_cons_of_ne_nil (List.splitOn_ne_nil '&'.toUInt8 text)
      rw [hsplit, intercalate_cons] at hjoin
      rw [hsplit, List.length_cons] at hlength
      rw [hsplit] at hfits
      have hpiece : ∀ p ∈ piece :: pieces, Generates UriPar.queryElem p := by
        intro p hp
        obtain ⟨hamp, hmem⟩ := splitOn_pieces text p (by rw [hsplit]; exact hp)
        exact UriPar.generates_of_fits (fun b hb => hgraph b (hmem b hb)) hamp (hfits p hp)
      obtain ⟨ws, hfirst⟩ := hpiece piece List.mem_cons_self
      obtain ⟨ws', hmore⟩ : Generates (.rep 0 127 (.seq (ch '&') UriPar.queryElem))
          (pieces.map ('&'.toUInt8 :: ·)).flatten := by
        refine generates_of_copies (Nat.zero_le _) (by rw [List.length_map]; omega) fun p hp => ?_
        obtain ⟨q, hq, rfl⟩ := List.mem_map.mp hp
        obtain ⟨us, hd⟩ := hpiece q (List.mem_cons_of_mem _ hq)
        exact ⟨_, .seq (UriPar.derives_ch_self '&') hd⟩
      have hd : Derives UriPar.queryList _ _ := .copy (.seq hfirst hmore) .none
      rw [List.append_nil, List.append_nil, ← List.flatMap_def, ← led, hjoin] at hd
      exact ⟨_, hd⟩
  obtain ⟨vs, hd⟩ := hgenerates
  have hp := UriPar.exact_queryList text vs [] hd heads_nil
  rw [List.append_nil] at hp
  intro oom query hquery
  obtain ⟨rest, hp'⟩ := uriParseQuery_ok hquery
  rw [hp] at hp'
  obtain ⟨rfl, -⟩ := Prod.mk.inj (Option.some.inj hp')
  obtain ⟨es, pieces, hes, -, hw, htext⟩ := UriPar.elems_of_derives hd
  exact ⟨es, hes, pieces, hw, htext⟩

/-- For every query of a URI, what `law_uri_parse_query` returns accounts for the
whole text if and only if the text is empty or each of its pieces is one element. -/
theorem parse_query_whole_iff {text : List UInt8} (h : Generates UriPar.query text) :
    KeepsQuery text ↔ QueryFits text :=
  ⟨queryFits_of_keeps, keepsQuery_of_fits h⟩

/-- `a=b&c`. -/
def twoElems : List UInt8 := ['a', '=', 'b', '&', 'c'].map Char.toUInt8

theorem parse_query_whole_two : KeepsQuery twoElems := by
  refine (parse_query_whole_iff (generates_of_parse ⟨[], rfl⟩)).mpr (.inr ?_)
  decide

/-- `a=b&&c`. -/
def emptyElem : List UInt8 := ['a', '=', 'b', '&', '&', 'c'].map Char.toUInt8

/-- A repeated separator ends the list, and the element behind it is lost. -/
theorem parse_query_cut : Generates UriPar.query emptyElem ∧ ¬ KeepsQuery emptyElem := by
  refine ⟨generates_of_parse ⟨[], rfl⟩, fun h => ?_⟩
  obtain h | h := queryFits_of_keeps h
  · cases h
  · exact absurd (h [] (by decide)) (by decide)

/-! ### Segments -/

/-- The piece is not empty. -/
def isSeg (piece : List UInt8) : Bool := !piece.isEmpty

/-- The segments of a text between slashes. -/
def segments (text : List UInt8) : List (List UInt8) := (text.splitOn '/'.toUInt8).filter isSeg

/-- Whatever `law_uri_parse_path` returns has all segments of the text. -/
def KeepsPath (text : List UInt8) : Prop := ∀ oom path, uriParsePath oom text = .ok path →
  uriPathSegs path = some (segments text)

/-- A repeated slash stands at the start, or nothing but slashes follow it. -/
def SlashesFit (text : List UInt8) : Prop :=
  ∀ x y, text = x ++ '/'.toUInt8 :: '/'.toUInt8 :: y → x = [] ∨ ∀ b ∈ y, b = '/'.toUInt8

/-- What is left of the segments behind the slashes at the start. -/
def behindSlashes : List (List UInt8) → List (List UInt8)
  | [] :: seg :: segs => seg :: segs
  | segs => segs

@[simp] theorem isSeg_false {piece : List UInt8} : isSeg piece = false ↔ piece = [] := by
  simp [isSeg]

@[simp] theorem isSeg_true {piece : List UInt8} : isSeg piece = true ↔ piece ≠ [] := by
  simp [isSeg]

theorem behindSlashes_cases (segs : List (List UInt8)) :
    segs = [] :: behindSlashes segs ∨
      (behindSlashes segs = segs ∧ ∀ ys, segs = [] :: ys → ys = []) := by
  match segs with
  | [] => exact .inr ⟨rfl, by simp⟩
  | [[]] => exact .inr ⟨rfl, by simp⟩
  | [_ :: _] => exact .inr ⟨rfl, by simp⟩
  | [] :: _ :: _ => exact .inl rfl
  | (_ :: _) :: _ :: _ => exact .inr ⟨rfl, by simp⟩

/-- The text of segments without a slash in front of the first one. -/
def unled : List (List UInt8) → List UInt8
  | [] => []
  | seg :: segs => seg ++ led '/'.toUInt8 segs

namespace UriPar

variable {t seg : List UInt8} {vs : List Node} {segs : List (List UInt8)}

theorem generates_segment (hd : Derives segmentNz t vs) : Generates segment t := by
  obtain ⟨ps, -, hhi, hps, rfl, rfl⟩ := hd.copies
  exact ⟨_, derives_of_copies ps (Nat.zero_le _) hhi hps⟩

theorem segs_of_pathAbempty (hd : Derives pathAbempty t vs) :
    ∃ segs, t = led '/'.toUInt8 segs ∧ ∀ seg ∈ segs, Generates segment seg := by
  obtain ⟨ps, -, -, hps, rfl, -⟩ := hd.copies
  clear hd
  induction ps with
  | nil => exact ⟨[], rfl, by simp⟩
  | cons p ps ih =>
    obtain ⟨segs, htext, hsegs⟩ := ih fun q hq => hps q (List.mem_cons_of_mem _ hq)
    obtain ⟨u, us⟩ := p
    cases hps _ List.mem_cons_self with
    | @seq _ _ _ seg _ _ hslash hd =>
      refine ⟨seg :: segs, ?_, ?_⟩
      · rw [List.flatMap_cons, htext, led_cons, derives_ch hslash]
        rfl
      · intro s hs
        obtain rfl | hs := List.mem_cons.mp hs
        · exact ⟨_, hd⟩
        · exact hsegs s hs

theorem segs_of_path (h : Generates pathAbsolute t ∨ Generates pathAbempty t) :
    ∃ segs, t = led '/'.toUInt8 segs ∧ ∀ seg ∈ segs, Generates segment seg := by
  obtain ⟨vs, hd⟩ | ⟨vs, hd⟩ := h
  · cases hd with
    | seq hslash hd =>
      obtain rfl := derives_ch hslash
      cases hd with
      | none => exact ⟨[[]], rfl, fun seg hseg => by
          rw [List.mem_singleton.mp hseg]
          exact ⟨[], .none⟩⟩
      | copy hd hrest =>
        cases hrest
        cases hd with
        | seq hfirst hmore =>
          obtain ⟨segs, rfl, hsegs⟩ := segs_of_pathAbempty hmore
          refine ⟨_ :: segs, by rw [led_cons, List.append_nil]; rfl, ?_⟩
          intro s hs
          obtain rfl | hs := List.mem_cons.mp hs
          · exact generates_segment hfirst
          · exact hsegs s hs
  · exact segs_of_pathAbempty hd

theorem followed_led (segs : List (List UInt8)) : Followed ['/'] (led '/'.toUInt8 segs) := by
  cases segs with
  | nil => exact heads_nil
  | cons seg segs =>
    rw [led_cons]
    exact heads_cons List.mem_cons_self

theorem parse_optSlash (segs : List (List UInt8)) :
    parse (.rep 0 1 fslash) (led '/'.toUInt8 segs) = some ([], unled segs) := by
  cases segs with
  | nil => rfl
  | cons seg segs =>
    rw [led_cons]
    rfl

theorem parse_twoSlashes (segs : List (List UInt8)) (h : ∀ seg ∈ segs, Generates segment seg) :
    parse (.rep 0 2 fslash) (led '/'.toUInt8 segs) = some ([], unled (behindSlashes segs)) := by
  have hslash : ∀ u, parse fslash ('/'.toUInt8 :: u) = some ([], u) := fun u => rfl
  match segs with
  | [] => rfl
  | [[]] => rfl
  | [] :: seg :: segs =>
    rw [led_cons, led_cons]
    rfl
  | (a :: u) :: segs =>
    have ha : parse fslash (a :: (u ++ led '/'.toUInt8 segs)) = none := by
      obtain ⟨vs, hd⟩ := h _ List.mem_cons_self
      refine parse_none_of_first rfl ?_
      by_contra hfirst
      rw [Bool.not_eq_false] at hfirst
      have hmem : '/'.toUInt8 ∈ a :: u := by
        rw [eq_of_first_ch hfirst]
        exact List.mem_cons_self
      exact hd.avoids rfl hmem
    rw [led_cons]
    simp only [parse, greedy, hslash, List.cons_append, ha, Nat.zero_le, if_true, List.nil_append]
    rfl

theorem generates_segmentNz (hd : Derives segment t vs) (hne : t ≠ []) :
    Derives segmentNz t vs := by
  cases hd with
  | none => exact absurd rfl hne
  | copy hd hrest => exact .copy hd hrest

/-- The repetition takes segments up to the first empty one. -/
theorem greedy_segs (h : ∀ seg ∈ segs, Generates segment seg) {n : ℕ}
    (hn : (segs.takeWhile isSeg).length ≤ n) :
    ∃ rest k, greedy (parse (.seq capSegNz (.rep 0 1 fslash))) n (unled segs) =
      ((segs.takeWhile isSeg).map (.str .seg), rest, k) := by
  induction segs generalizing n with
  | nil =>
    exact ⟨_, _, greedy_none (parse_none_of_followed rfl rfl [] (heads_nil : Followed [] []))⟩
  | cons seg segs ih =>
    obtain ⟨vs, hd⟩ := h seg List.mem_cons_self
    by_cases hempty : seg = []
    · subst hempty
      have hnone := parse_none_of_followed (g := .seq capSegNz (.rep 0 1 fslash)) rfl rfl _
        (followed_led segs)
      exact ⟨_, _, greedy_none hnone⟩
    · have hkeep := isSeg_true.mpr hempty
      rw [List.takeWhile_cons_of_pos hkeep, List.length_cons] at hn
      obtain ⟨n, rfl⟩ := Nat.exists_eq_add_of_le' (Nat.lt_of_lt_of_le (Nat.succ_pos _) hn)
      have hseg : Derives capSegNz seg [.str .seg seg] := .cap (generates_segmentNz hd hempty)
      have hfirst := exact_segmentNz.cap seg _ _ hseg (Followed.mono rfl _ (followed_led segs))
      have hone : parse (.seq capSegNz (.rep 0 1 fslash)) (seg ++ led '/'.toUInt8 segs) =
          some ([.str .seg seg], unled segs) :=
        parse_seq.mpr ⟨_, _, _, hfirst, parse_optSlash segs, rfl⟩
      obtain ⟨rest, k, hrest⟩ := ih (fun s hs => h s (List.mem_cons_of_mem _ hs))
        (Nat.le_of_succ_le_succ hn)
      refine ⟨rest, k + 1, ?_⟩
      rw [List.takeWhile_cons_of_pos hkeep, unled]
      simp only [greedy, hone, hrest]
      rfl

/-- What is captured from a path. -/
theorem parse_pathList (h : ∀ seg ∈ segs, Generates segment seg)
    (hn : ((behindSlashes segs).takeWhile isSeg).length ≤ 127) :
    ∃ rest, parse pathList (led '/'.toUInt8 segs) =
      some (((behindSlashes segs).takeWhile isSeg).map (.str .seg), rest) := by
  have hbehind : ∀ seg ∈ behindSlashes segs, Generates segment seg := by
    intro seg hseg
    obtain hcons | ⟨heq, -⟩ := behindSlashes_cases segs
    · exact h seg (by rw [hcons]; exact List.mem_cons_of_mem _ hseg)
    · exact h seg (by rwa [heq] at hseg)
  obtain ⟨rest, k, hgreedy⟩ := greedy_segs hbehind hn
  have hmore := parse_rep_of_greedy hgreedy (Nat.zero_le k)
  exact ⟨rest, parse_seq.mpr ⟨_, _, _, parse_twoSlashes segs h, hmore, rfl⟩⟩

end UriPar

/-- Only the first segment is empty, or nothing but empty ones follow an empty one. -/
def SegsFit (segs : List (List UInt8)) : Prop :=
  ∀ xs ys, segs = xs ++ [] :: ys → xs = [] ∨ ∀ seg ∈ ys, seg = []

@[simp] theorem behindSlashes_filter (segs : List (List UInt8)) :
    (behindSlashes segs).filter isSeg = segs.filter isSeg := by
  obtain hcons | ⟨heq, -⟩ := behindSlashes_cases segs
  · conv_rhs => rw [hcons, List.filter_cons_of_neg (by simp [isSeg])]
  · rw [heq]

theorem takeWhile_behindSlashes_iff {segs : List (List UInt8)} :
    (behindSlashes segs).takeWhile isSeg = segs.filter isSeg ↔ SegsFit segs := by
  rw [← behindSlashes_filter, takeWhile_eq_filter_iff]
  simp only [isSeg_false]
  obtain hcons | ⟨heq, hlone⟩ := behindSlashes_cases segs
  · constructor
    · intro h xs ys hsplit
      cases xs with
      | nil => exact .inl rfl
      | cons x xs =>
        rw [hcons, List.cons_append] at hsplit
        exact .inr (h xs [] ys (List.cons.inj hsplit).2 rfl)
    · intro h xs seg ys hsplit hseg
      rw [hseg] at hsplit
      obtain hnil | hys := h ([] :: xs) ys (by rw [hcons, hsplit]; rfl)
      · cases hnil
      · exact hys
  · rw [heq]
    constructor
    · exact fun h xs ys hsplit => .inr (h xs [] ys hsplit rfl)
    · intro h xs seg ys hsplit hseg
      rw [hseg] at hsplit
      obtain rfl | hys := h xs ys hsplit
      · rw [hlone ys hsplit]
        simp
      · exact hys

theorem slashesFit_iff {segs : List (List UInt8)} (h : ∀ seg ∈ segs, '/'.toUInt8 ∉ seg) :
    SlashesFit (led '/'.toUInt8 segs) ↔ SegsFit segs := by
  constructor
  · rintro hfit xs ys rfl
    cases ys with
    | nil => exact .inr (by simp)
    | cons seg ys =>
      obtain hnil | hys := hfit (led '/'.toUInt8 xs) (seg ++ led '/'.toUInt8 ys)
        (by rw [led_append, led_cons, led_cons, List.nil_append])
      · cases xs with
        | nil => exact .inl rfl
        | cons x xs =>
          rw [led_cons] at hnil
          cases hnil
      · refine .inr fun s hs => List.eq_nil_iff_forall_not_mem.mpr fun b hb => ?_
        have hslash : b = '/'.toUInt8 := by
          refine hys b ?_
          obtain rfl | hs := List.mem_cons.mp hs
          · exact List.mem_append_left _ hb
          · exact List.mem_append_right _ (List.mem_flatMap.mpr ⟨s, hs, List.mem_cons_of_mem _ hb⟩)
        exact h s (by simp [List.mem_cons.mp hs]) (hslash ▸ hb)
  · intro hfit x y htext
    have hcut := splitOn_led h
    rw [htext, List.splitOn_append_cons_self, ← List.nil_append ('/'.toUInt8 :: y),
      List.splitOn_append_cons_self, List.splitOn_nil] at hcut
    cases x with
    | nil => exact .inl rfl
    | cons a x =>
      have ha : a = '/'.toUInt8 := by
        cases segs with
        | nil => cases htext
        | cons seg segs =>
          rw [led_cons, List.cons_append] at htext
          exact (List.cons.inj htext).1.symm
      rw [ha, ← List.nil_append ('/'.toUInt8 :: x), List.splitOn_append_cons_self,
        List.splitOn_nil] at hcut
      obtain hnil | hys := hfit _ _ (List.cons.inj hcut).2.symm
      · exact absurd hnil (List.splitOn_ne_nil _ _)
      · refine .inr fun b hb => ?_
        have hjoin : ['/'.toUInt8].intercalate (y.splitOn '/'.toUInt8) = y :=
          List.intercalate_splitOn _
        rw [← hjoin] at hb
        obtain ⟨p, ps, hp⟩ := List.exists_cons_of_ne_nil (List.splitOn_ne_nil '/'.toUInt8 y)
        rw [hp] at hys
        rw [hp, intercalate_cons, hys p List.mem_cons_self, List.nil_append] at hb
        obtain ⟨q, hq, hb⟩ := List.mem_flatMap.mp hb
        rw [hys q (List.mem_cons_of_mem _ hq)] at hb
        exact List.mem_singleton.mp hb

@[simp] theorem uriPathSegs_map (segs : List (List UInt8)) (count : ℕ) :
    uriPathSegs ⟨segs.map (.str .seg), count⟩ = some segs := by
  rw [uriPathSegs]
  induction segs with
  | nil => rfl
  | cons seg segs ih =>
    rw [List.map_cons, List.mapM_cons, ih]
    rfl

theorem segments_led {segs : List (List UInt8)} (h : ∀ seg ∈ segs, '/'.toUInt8 ∉ seg) :
    segments (led '/'.toUInt8 segs) = segs.filter isSeg := by
  rw [segments, splitOn_led h]
  rfl

theorem takeWhile_behindSlashes_length (segs : List (List UInt8)) :
    ((behindSlashes segs).takeWhile isSeg).length ≤ (segs.filter isSeg).length := by
  have hsub := (List.takeWhile_sublist isSeg (l := behindSlashes segs)).filter isSeg
  have hall : ((behindSlashes segs).takeWhile isSeg).filter isSeg =
      (behindSlashes segs).takeWhile isSeg :=
    List.filter_eq_self.mpr (List.all_eq_true.mp List.all_takeWhile)
  rw [hall, behindSlashes_filter] at hsub
  exact hsub.length_le

/-- For every path that begins with a slash and has at most 127 segments,
`law_uri_parse_path` returns all of them if and only if a repeated slash stands
at the start or has nothing but slashes behind it. -/
theorem parse_path_segments_iff {text : List UInt8}
    (h : Generates UriPar.pathAbsolute text ∨ Generates UriPar.pathAbempty text)
    (hlen : (segments text).length ≤ 127) : KeepsPath text ↔ SlashesFit text := by
  obtain ⟨segs, rfl, hsegs⟩ := UriPar.segs_of_path h
  have hclean : ∀ seg ∈ segs, '/'.toUInt8 ∉ seg := by
    intro seg hseg
    obtain ⟨vs, hd⟩ := hsegs seg hseg
    exact hd.avoids rfl
  rw [segments_led hclean] at hlen
  obtain ⟨rest, hp⟩ := UriPar.parse_pathList hsegs
    ((takeWhile_behindSlashes_length segs).trans hlen)
  rw [slashesFit_iff hclean, ← takeWhile_behindSlashes_iff]
  have hresult := uriPathSegs_map ((behindSlashes segs).takeWhile isSeg)
  constructor
  · intro hkeeps
    have hparsed := congrArg (Except.map fun out => (⟨out.1, out.1.length⟩ : UriPath))
      (langParse_of_parse hp)
    have hsegments := hkeeps false _ hparsed
    rw [hresult, segments_led hclean] at hsegments
    exact Option.some.inj hsegments
  · intro hall oom path hpath
    obtain ⟨out, hout, rfl⟩ := except_map_ok hpath
    have hout := langParse_ok hout
    rw [hp] at hout
    obtain rfl := Option.some.inj hout
    rw [hresult, segments_led hclean, hall]

/-- `/a/b`. -/
def twoSegs : List UInt8 := ['/', 'a', '/', 'b'].map Char.toUInt8

/-- `/a//b`. -/
def emptySeg : List UInt8 := ['/', 'a', '/', '/', 'b'].map Char.toUInt8

theorem parse_path_segments_two : KeepsPath twoSegs := by
  refine (parse_path_segments_iff (.inl (generates_of_parse ⟨[], rfl⟩)) (by decide)).mpr ?_
  have hfit : SegsFit [['a'.toUInt8], ['b'.toUInt8]] :=
    takeWhile_behindSlashes_iff.mp (by decide)
  exact (slashesFit_iff (by decide)).mpr hfit

/-- A repeated slash ends the list, and the segment behind it is lost. -/
theorem parse_path_cut : Generates UriPar.pathAbsolute emptySeg ∧
    (segments emptySeg).length ≤ 127 ∧ ¬ KeepsPath emptySeg := by
  refine ⟨generates_of_parse ⟨[], rfl⟩, by decide, fun h => ?_⟩
  have hp : uriParsePath false emptySeg = .ok ⟨[.str .seg ['a'.toUInt8]], 1⟩ := rfl
  exact absurd (h false _ hp) (by decide)

end Lawd
