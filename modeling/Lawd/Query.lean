import Lawd.UriParts
import Mathlib.Data.List.Forall2

/-!
# Reading queries back

The elements of a well-formed query are what `law_uri_parse_query` returns: the
number of them, an iteration over them and a look-up by name give the same list.
-/
namespace Lawd

open Library Library.Peg

/-- An element of a well-formed query. -/
structure QueryElem where
  name : List UInt8
  value : Option (List UInt8)
  name_pos : 1 ≤ name.length
  name_le : name.length ≤ 127
  name_chars : ∀ b ∈ name, (isGraph b && !UriPar.queryReserved b) = true
  value_le : ∀ v ∈ value, v.length ≤ 127
  value_chars : ∀ v ∈ value, ∀ b ∈ v, (isGraph b && !UriPar.queryReserved b) = true

/-- The name, or the name, `=` and the value. -/
def QueryElem.text (e : QueryElem) : List UInt8 :=
  match e.value with
  | none => e.name
  | some value => e.name ++ '='.toUInt8 :: value

/-- The name and the value, which is `""` where it is missing. -/
def QueryElem.pair (e : QueryElem) : List UInt8 × List UInt8 := (e.name, e.value.getD [])

/-- The elements joined by `&`. -/
def queryText (elems : List QueryElem) : List UInt8 :=
  ['&'.toUInt8].intercalate (elems.map QueryElem.text)

/-- `law_uri_query_count`. -/
def uriQueryCount (query : List Node) : ℕ := query.length

/-- `law_uri_query_get`. -/
def uriQueryGet (query : List Node) (name : List UInt8) : Option (Option (List UInt8)) :=
  pairGet name query

/-- What `law_uri_query_next` gives behind `n` other calls on what
`law_uri_query_elems` returned. -/
def uriQueryNth (query : List Node) (n : ℕ) : Option (Option (List UInt8 × List UInt8)) :=
  pairNth n query

/-- The three ways of reading a query give the same list of pairs. -/
structure Reads (query : List Node) (pairs : List (List UInt8 × List UInt8)) : Prop where
  count : uriQueryCount query = pairs.length
  next : ∀ n, uriQueryNth query n = some pairs[n]?
  get : ∀ name, uriQueryGet query name = some ((pairs.find? (·.1 == name)).map Prod.snd)

theorem reads_of_isPair {query : List Node} {pairs : List (List UInt8 × List UInt8)}
    (h : List.Forall₂ IsPair query pairs) : Reads query pairs :=
  ⟨h.length_eq, pairNth_eq h, pairGet_eq h⟩

/-! ### The tree of a query -/

/-- What is captured from an element: an empty value is not. -/
def QueryElem.node (e : QueryElem) : Node :=
  .lst .elem (.str .token e.name ::
    match e.value with
    | none => []
    | some [] => []
    | some (b :: value) => [.str .token (b :: value)])

theorem QueryElem.isPair (e : QueryElem) : IsPair e.node e.pair := by
  match e with
  | ⟨_, none, _, _, _, _, _⟩ => exact ⟨rfl, rfl⟩
  | ⟨_, some [], _, _, _, _, _⟩ => exact ⟨rfl, rfl⟩
  | ⟨_, some (_ :: _), _, _, _, _, _⟩ => exact ⟨rfl, rfl⟩

namespace UriPar

theorem derives_node (e : QueryElem) : Derives queryElem e.text [e.node] := by
  have hname := derives_queryToken.mpr ⟨rfl, e.name_pos, e.name_le, e.name_chars⟩
  have hvalued : ∀ {value vs}, Derives (.rep 0 1 queryToken) value vs →
      Derives queryElem (e.name ++ '='.toUInt8 :: value)
        [.lst .elem (.str .token e.name :: vs)] := by
    intro value vs hd
    have hassign : Derives (.rep 0 1 (.seq (ch '=') (.rep 0 1 queryToken)))
        ((['='.toUInt8] ++ value) ++ []) (([] ++ vs) ++ []) :=
      .copy (.seq (derives_ch_self '=') hd) .none
    rw [List.append_nil, List.append_nil] at hassign
    exact .cap (.seq hname hassign)
  unfold QueryElem.text QueryElem.node
  match hvalue : e.value with
  | none =>
    have hbare : Derives queryElem (e.name ++ []) [.lst .elem ([.str .token e.name] ++ [])] :=
      .cap (.seq hname .none)
    rwa [List.append_nil] at hbare
  | some [] => exact hvalued .none
  | some (b :: value) =>
    have htoken : Derives queryToken (b :: value) [.str .token (b :: value)] :=
      derives_queryToken.mpr ⟨rfl, Nat.succ_pos value.length, e.value_le _ hvalue,
        e.value_chars _ hvalue⟩
    have hone : Derives (.rep 0 1 queryToken) ((b :: value) ++ [])
        ([.str .token (b :: value)] ++ []) := .copy htoken .none
    rw [List.append_nil, List.append_nil] at hone
    exact hvalued hone

theorem derives_led {elems : List QueryElem} (hlen : elems.length ≤ 127) :
    Derives (.rep 0 127 (.seq (ch '&') queryElem)) (led '&'.toUInt8 (elems.map QueryElem.text))
      (elems.map QueryElem.node) := by
  have hps : ∀ p ∈ elems.map fun e => ('&'.toUInt8 :: e.text, [e.node]),
      Derives (.seq (ch '&') queryElem) p.1 p.2 := by
    intro p hp
    obtain ⟨e, -, rfl⟩ := List.mem_map.mp hp
    exact .seq (derives_ch_self '&') (derives_node e)
  have hd := derives_of_copies _ (Nat.zero_le _) ((List.length_map _).trans_le hlen) hps
  have htext : (elems.map fun e => ('&'.toUInt8 :: e.text, [e.node])).flatMap (·.1) =
      led '&'.toUInt8 (elems.map QueryElem.text) := by
    rw [led, List.flatMap_map, List.flatMap_map]
  have hnodes : (elems.map fun e => ('&'.toUInt8 :: e.text, [e.node])).flatMap (·.2) =
      elems.map QueryElem.node := by
    rw [List.flatMap_map]
    exact List.map_eq_flatMap.symm
  rwa [htext, hnodes] at hd

theorem derives_queryText {elems : List QueryElem} (hlen : elems.length ≤ 128) :
    Derives queryList (queryText elems) (elems.map QueryElem.node) := by
  cases elems with
  | nil => exact .none
  | cons e elems =>
    have hmore := derives_led (Nat.le_of_succ_le_succ hlen)
    have hd : Derives queryList ((e.text ++ led '&'.toUInt8 (elems.map QueryElem.text)) ++ [])
        (([e.node] ++ elems.map QueryElem.node) ++ []) :=
      .copy (.seq (derives_node e) hmore) .none
    rw [List.append_nil, List.append_nil] at hd
    rwa [queryText, List.map_cons, intercalate_cons]

end UriPar

theorem uriParseQuery_queryText {elems : List QueryElem} (hlen : elems.length ≤ 128) :
    uriParseQuery false (queryText elems) = .ok (elems.map QueryElem.node) := by
  have hp := UriPar.exact_queryList _ _ [] (UriPar.derives_queryText hlen) heads_nil
  rw [List.append_nil] at hp
  rw [uriParseQuery, langParse_of_parse hp]
  rfl

theorem isPair_map (elems : List QueryElem) :
    List.Forall₂ IsPair (elems.map QueryElem.node) (elems.map QueryElem.pair) := by
  rw [List.forall₂_map_left_iff, List.forall₂_map_right_iff]
  exact List.forall₂_same.mpr fun e _ => e.isPair

/-- For every list of at most 128 elements, parsing their text succeeds, the count
is the length of the list, an iteration gives the elements in order and then null,
and a look-up gives the value of the first element with the name, and null if
there is none. -/
theorem parse_query_reads_back (elems : List QueryElem) (hlen : elems.length ≤ 128) :
    ∃ query, uriParseQuery false (queryText elems) = .ok query ∧
      uriQueryCount query = elems.length ∧
      (∀ n, uriQueryNth query n = some ((elems.map QueryElem.pair)[n]?)) ∧
      ∀ name, uriQueryGet query name =
          some (((elems.map QueryElem.pair).find? (·.1 == name)).map Prod.snd) ∧
        (uriQueryGet query name = some none ↔ ∀ e ∈ elems, e.name ≠ name) := by
  have hreads := reads_of_isPair (isPair_map elems)
  refine ⟨_, uriParseQuery_queryText hlen, List.length_map _, hreads.next, fun name => ?_⟩
  refine ⟨hreads.get name, ?_⟩
  rw [hreads.get, Option.some_inj, Option.map_eq_none_iff, List.find?_eq_none, List.forall_mem_map]
  simp [QueryElem.pair]

/-- `a=1&a&b=`. -/
def threeElems : List UInt8 := ['a', '=', '1', '&', 'a', '&', 'b', '='].map Char.toUInt8

theorem parse_query_reads_back_three : ∃ query, uriParseQuery false threeElems = .ok query ∧
    uriQueryCount query = 3 ∧
    uriQueryNth query 1 = some (some (['a'.toUInt8], [])) ∧ uriQueryNth query 3 = some none ∧
    uriQueryGet query ['a'.toUInt8] = some (some ['1'.toUInt8]) ∧
    uriQueryGet query ['b'.toUInt8] = some (some []) ∧
    uriQueryGet query ['c'.toUInt8] = some none := by
  have ha : ∀ b ∈ ['a'.toUInt8], (isGraph b && !UriPar.queryReserved b) = true :=
    List.forall_mem_singleton.mpr rfl
  have hb : ∀ b ∈ ['b'.toUInt8], (isGraph b && !UriPar.queryReserved b) = true :=
    List.forall_mem_singleton.mpr rfl
  let valued : QueryElem := ⟨['a'.toUInt8], some ['1'.toUInt8], le_rfl, by decide, ha, by simp,
    fun v hv => by cases hv; exact List.forall_mem_singleton.mpr rfl⟩
  let bare : QueryElem := ⟨['a'.toUInt8], none, le_rfl, by decide, ha, nofun, nofun⟩
  let empty : QueryElem := ⟨['b'.toUInt8], some [], le_rfl, by decide, hb, by simp, by simp⟩
  obtain ⟨query, hquery, hcount, hnext, hget⟩ :=
    parse_query_reads_back [valued, bare, empty] (Nat.le_add_right 3 125)
  exact ⟨query, hquery, hcount, hnext 1, hnext 3, (hget _).1, (hget _).1, (hget _).1⟩

end Lawd
