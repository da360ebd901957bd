import Lawd.Library.Lines

/-!
# Uniform resource identifiers

The grammar of URIs, rule by rule, with what its captures put into the syntax
tree, and the identifier that `law_uri_from_ast` takes from the tree. Character
classes are those of the C locale.
-/
namespace Lawd

open Library Library.Peg

/-- `enum law_uri_part` and `enum law_htp_tag`. -/
inductive Tag where
  | scheme
  | host
  | port
  | path
  | query
  | token
  | elem
  | seg
  | status
  | method
  | version
  | field
  | fieldName
  | fieldValue
  | originForm
  | absoluteForm
  | authorityForm
  deriving DecidableEq, Repr

/-- Syntax trees: strings, numbers and lists, tagged. -/
inductive Node where
  | str (tag : Tag) (text : List UInt8)
  | num (tag : Tag) (value : UInt32)
  | lst (tag : Tag) (items : List Node)
  deriving Repr

/-- Expressions of the grammars. -/
abbrev Rule := Peg UInt8 Node

/-- `pgc_lang_readterm` with `pgc_lang_readstr`: capture the text. -/
def readTerm (tag : Tag) (g : Rule) : Rule := .cap (fun text _ => .str tag text) g

/-- The value of decimal digits. -/
def decodeDec (text : List UInt8) : ℕ := text.foldl (fun n b => 10 * n + (b.toNat - 0x30)) 0

/-- `pgc_lang_readterm` with `law_htp_read_uint32`: capture the number. -/
def readUint32 (tag : Tag) (g : Rule) : Rule :=
  .cap (fun text _ => .num tag (UInt32.ofNat (decodeDec text))) g

/-- `pgc_lang_readexp`: capture what is captured inside. -/
def readExp (tag : Tag) (g : Rule) : Rule := .cap (fun _ items => .lst tag items) g

/-- A character of the grammar. -/
def ch (c : Char) : Rule := sym c.toUInt8

/-- A set of characters. -/
def oneOf (cs : List Char) (b : UInt8) : Bool := cs.any fun c => c.toUInt8 == b

def isDigit (b : UInt8) : Bool := 0x30 ≤ b && b ≤ 0x39

def isAlpha (b : UInt8) : Bool := (0x41 ≤ b && b ≤ 0x5A) || (0x61 ≤ b && b ≤ 0x7A)

def isXdigit (b : UInt8) : Bool :=
  isDigit b || (0x41 ≤ b && b ≤ 0x46) || (0x61 ≤ b && b ≤ 0x66)

def isGraph (b : UInt8) : Bool := 0x21 ≤ b && b ≤ 0x7E

namespace UriPar

/-! ### The rules of `uri.g` -/

def alpha : Rule := .set isAlpha

def digit : Rule := .set isDigit

def subDelims (b : UInt8) : Bool :=
  oneOf ['!', '$', '&', '(', ')', '*', '+', ',', ';', '='] b || b == 0x27

def unreserved (b : UInt8) : Bool := isAlpha b || isDigit b || oneOf ['-', '.', '_', '~'] b

def schemec : Rule := .set fun b => isAlpha b || isDigit b || oneOf ['+', '-', '.'] b

def scheme : Rule := .seq alpha (.rep 0 64 schemec)

def oneToNine : Rule := .set fun b => isDigit b && b != 0x30

def zeroToFour : Rule := .set (oneOf ['0', '1', '2', '3', '4'])

def zeroToFive : Rule := .set (oneOf ['0', '1', '2', '3', '4', '5'])

def decOctet : Rule :=
  alts (seqs (ch '2') [ch '5', zeroToFive])
    [seqs (ch '2') [zeroToFour, digit],
      .seq (ch '1') (.rep 2 2 digit),
      .seq oneToNine digit,
      digit]

def ipv4address : Rule :=
  seqs decOctet [ch '.', decOctet, ch '.', decOctet, ch '.', decOctet]

def hexdig : Rule := .set isXdigit

def colon : Rule := ch ':'

def h16 : Rule := .rep 1 4 hexdig

def ls32 : Rule := .alt (seqs h16 [colon, h16]) ipv4address

def h16Colon : Rule := .seq h16 colon

def colonH16 : Rule := .seq colon h16

def colonColon : Rule := .seq (ch ':') (ch ':')

/-- Up to `n + 1` groups in front of the two colons. -/
def h16UpTo (n : ℕ) : Rule := .rep 0 1 (.seq h16 (.rep 0 n colonH16))

def ipv6address : Rule :=
  alts (.seq (.rep 6 6 h16Colon) ls32)
    [seqs colonColon [.rep 5 5 h16Colon, ls32],
      seqs (.rep 0 1 h16) [colonColon, .rep 4 4 h16Colon, ls32],
      seqs (h16UpTo 1) [colonColon, .rep 3 3 h16Colon, ls32],
      seqs (h16UpTo 2) [colonColon, .rep 2 2 h16Colon, ls32],
      seqs (h16UpTo 3) [colonColon, h16Colon, ls32],
      seqs (h16UpTo 4) [colonColon, ls32],
      seqs (h16UpTo 5) [colonColon, h16],
      .seq (h16UpTo 6) colonColon]

def ipLiteral : Rule := seqs (ch '[') [ipv6address, ch ']']

def pctEncoded : Rule := seqs (ch '%') [hexdig, hexdig]

def regName : Rule := .rep 0 127 (alts (.set unreserved) [pctEncoded, .set subDelims])

def host : Rule := alts ipLiteral [ipv4address, regName]

def port : Rule := .rep 0 5 digit

def authority : Rule := .seq host (.rep 0 1 (.seq colon port))

def pchar : Rule := alts (.set unreserved) [pctEncoded, .set subDelims, colon, ch '@']

def segmentNz : Rule := .rep 1 127 pchar

def segment : Rule := .rep 0 127 pchar

def fslash : Rule := ch '/'

def pathAbempty : Rule := .rep 0 127 (.seq fslash segment)

def pathAbsolute : Rule :=
  .seq fslash (.rep 0 1 (.seq segmentNz (.rep 0 127 (.seq fslash segment))))

def pathRootless : Rule := .seq segmentNz (.rep 0 127 (.seq fslash segment))

def pathEmpty : Rule := .rep 0 0 pchar

def hierPart : Rule :=
  alts (seqs fslash [fslash, authority, pathAbempty]) [pathAbsolute, pathRootless, pathEmpty]

def qmark : Rule := ch '?'

def query : Rule := .rep 0 127 (alts pchar [fslash, qmark])

def absoluteURI : Rule := seqs scheme [colon, hierPart, .rep 0 1 (.seq qmark query)]

/-! ### Captures -/

def capScheme : Rule := readTerm .scheme scheme

def capAuthority : Rule :=
  .seq (readTerm .host host) (.rep 0 1 (.seq colon (readTerm .port port)))

def capQuery : Rule := .rep 0 1 (.seq qmark (readTerm .query query))

def capHeirpart : Rule :=
  alts (seqs fslash [fslash, capAuthority, readTerm .path pathAbempty])
    [readTerm .path pathAbsolute, readTerm .path pathRootless, readTerm .path pathEmpty]

def capAbsoluteURI : Rule := seqs capScheme [colon, capHeirpart, capQuery]

def capOriginURI : Rule := .seq (readTerm .path pathAbsolute) capQuery

end UriPar

/-- `law_uri_t`. -/
structure Uri where
  scheme : Option (List UInt8)
  host : Option (List UInt8)
  port : Option (List UInt8)
  path : Option (List UInt8)
  query : Option (List UInt8)
  deriving DecidableEq, Repr

/-- One turn of the loop in `law_uri_from_ast`, which halts on other tags. -/
def uriPart (uri : Uri) : Node → Option Uri
  | .str .host text => some { uri with host := some text }
  | .str .path text => some { uri with path := some text }
  | .str .port text => some { uri with port := some text }
  | .str .scheme text => some { uri with scheme := some text }
  | .str .query text => some { uri with query := some text }
  | _ => none

/-- `law_uri_from_ast`. -/
def uriFromAst (list : List Node) : Option Uri :=
  list.foldlM uriPart ⟨none, none, none, none, none⟩

/-- The nodes that `law_uri_from_ast` accepts. -/
def IsUriPart (node : Node) : Prop := ∃ tag text, node = .str tag text ∧
  (tag = .scheme ∨ tag = .host ∨ tag = .port ∨ tag = .path ∨ tag = .query)

theorem uriPart_some {node : Node} (h : IsUriPart node) (uri : Uri) :
    ∃ uri', uriPart uri node = some uri' := by
  obtain ⟨tag, text, rfl, rfl | rfl | rfl | rfl | rfl⟩ := h <;> exact ⟨_, rfl⟩

/-- `law_uri_from_ast` does not halt on the parts of identifiers. -/
theorem uriFromAst_some {list : List Node} (h : ∀ node ∈ list, IsUriPart node) :
    ∃ uri, uriFromAst list = some uri := by
  have hfold : ∀ uri, ∃ uri', list.foldlM uriPart uri = some uri' := by
    induction list with
    | nil => exact fun uri => ⟨uri, rfl⟩
    | cons node list ih =>
      intro uri
      obtain ⟨uri', huri⟩ := uriPart_some (h node (by simp)) uri
      obtain ⟨uri'', hrest⟩ := ih (fun n hn => h n (by simp [hn])) uri'
      exact ⟨uri'', by rw [List.foldlM_cons, huri]; exact hrest⟩
  exact hfold _

theorem uriPart_keeps {uri uri' : Uri} {node : Node} (h : uriPart uri node = some uri') :
    (uri.scheme ≠ none → uri'.scheme ≠ none) ∧ (uri.host ≠ none → uri'.host ≠ none) := by
  unfold uriPart at h
  split at h
  all_goals cases h
  · exact ⟨id, fun _ => Option.some_ne_none _⟩
  · exact ⟨id, id⟩
  · exact ⟨id, id⟩
  · exact ⟨fun _ => Option.some_ne_none _, id⟩
  · exact ⟨id, id⟩

/-- What every turn of the loop keeps, the loop keeps. -/
theorem uriFold_keeps {P : Uri → Prop}
    (hstep : ∀ {uri uri' node}, uriPart uri node = some uri' → P uri → P uri')
    {list : List Node} {uri uri' : Uri} (h : list.foldlM uriPart uri = some uri') (hP : P uri) :
    P uri' := by
  induction list generalizing uri with
  | nil => rwa [← Option.some.inj h]
  | cons node list ih =>
    rw [List.foldlM_cons, Option.bind_eq_bind, Option.bind_eq_some_iff] at h
    obtain ⟨uri₁, hpart, hrest⟩ := h
    exact ih hrest (hstep hpart hP)

/-- The parts of an identifier with an authority. -/
theorem uriFromAst_net (scheme host path : List UInt8) (port query : Option (List UInt8)) :
    uriFromAst (.str .scheme scheme :: ((.str .host host :: ((port.map (.str .port)).toList ++
      [.str .path path])) ++ (query.map (.str .query)).toList)) =
      some ⟨some scheme, some host, port, some path, query⟩ := by
  cases port <;> cases query <;> rfl

theorem uriFromAst_path (scheme path : List UInt8) (query : Option (List UInt8)) :
    uriFromAst (.str .scheme scheme :: ([.str .path path] ++ (query.map (.str .query)).toList)) =
      some ⟨some scheme, none, none, some path, query⟩ := by
  cases query <;> rfl

theorem yields_readTerm {tag : Tag} (g : Rule)
    (htag : tag = .scheme ∨ tag = .host ∨ tag = .port ∨ tag = .path ∨ tag = .query) :
    Yields IsUriPart (readTerm tag g) :=
  fun text _ => ⟨tag, text, rfl, htag⟩

namespace UriPar

theorem yields_capQuery : Yields IsUriPart capQuery := ⟨trivial, yields_readTerm query (by simp)⟩

theorem yields_capAuthority : Yields IsUriPart capAuthority :=
  ⟨yields_readTerm host (by simp), trivial, yields_readTerm port (by simp)⟩

theorem yields_capOriginURI : Yields IsUriPart capOriginURI :=
  ⟨yields_readTerm pathAbsolute (by simp), yields_capQuery⟩

theorem yields_capHeirpart : Yields IsUriPart capHeirpart :=
  ⟨⟨⟨⟨⟨⟨trivial, trivial⟩, yields_capAuthority⟩, yields_readTerm pathAbempty (by simp)⟩,
    yields_readTerm pathAbsolute (by simp)⟩, yields_readTerm pathRootless (by simp)⟩,
    yields_readTerm pathEmpty (by simp)⟩

theorem yields_capAbsoluteURI : Yields IsUriPart capAbsoluteURI :=
  ⟨⟨⟨yields_readTerm scheme (by simp), trivial⟩, yields_capHeirpart⟩, yields_capQuery⟩

end UriPar

/-! ### Lists of pairs -/

/-- The name of a captured element, the string at its front. -/
def pairName : Node → Option (List UInt8)
  | .lst _ (.str _ name :: _) => some name
  | _ => none

/-- Its value, the string behind the name, or `""` where nothing is behind it. -/
def pairValue : Node → Option (List UInt8)
  | .lst _ [_] => some []
  | .lst _ (_ :: .str _ value :: _) => some value
  | _ => none

/-- The loop of `law_uri_query_get` and of `law_hth_get`: `none` where a string is
read that is not there, and `some none` for a null pointer. -/
def pairGet (name : List UInt8) : List Node → Option (Option (List UInt8))
  | [] => some none
  | l :: ls =>
    match pairName l with
    | none => none
    | some n => if n = name then (pairValue l).map some else pairGet name ls

/-- `law_uri_query_next` and `law_hth_next`: the pair and the rest of the list, or
a null pointer. -/
def pairNext : List Node → Option (Option ((List UInt8 × List UInt8) × List Node))
  | [] => some none
  | l :: ls =>
    match pairName l, pairValue l with
    | some name, some value => some (some ((name, value), ls))
    | _, _ => none

/-- What the call behind `n` others on the same iterator gives. -/
def pairNth : ℕ → List Node → Option (Option (List UInt8 × List UInt8))
  | 0, list => (pairNext list).map (Option.map Prod.fst)
  | n + 1, list =>
    match pairNext list with
    | none => none
    | some none => pairNth n list
    | some (some (_, rest)) => pairNth n rest

/-- The element holds the pair. -/
def IsPair (node : Node) (pair : List UInt8 × List UInt8) : Prop :=
  pairName node = some pair.1 ∧ pairValue node = some pair.2

section Pairs

variable {list : List Node} {pairs : List (List UInt8 × List UInt8)}

theorem pairNth_eq (h : List.Forall₂ IsPair list pairs) (n : ℕ) :
    pairNth n list = some pairs[n]? := by
  induction n generalizing list pairs with
  | zero =>
    cases h with
    | nil => rfl
    | cons hpair _ => simp [pairNth, pairNext, hpair.1, hpair.2]
  | succ n ih =>
    cases h with
    | nil => simpa [pairNth, pairNext] using ih .nil
    | cons hpair hrest => simpa [pairNth, pairNext, hpair.1, hpair.2] using ih hrest

theorem pairGet_eq (h : List.Forall₂ IsPair list pairs) (name : List UInt8) :
    pairGet name list = some ((pairs.find? (·.1 == name)).map Prod.snd) := by
  induction h with
  | nil => rfl
  | @cons l pair ls pairs hpair _ ih =>
    simp only [pairGet, hpair.1]
    by_cases hname : pair.1 = name
    · rw [if_pos hname, hpair.2, List.find?_cons_of_pos (by simpa using hname)]
      rfl
    · rw [if_neg hname, ih, List.find?_cons_of_neg (by simpa using hname)]

end Pairs

end Lawd
