import Lawd.Uri

/-!
# The grammar of HTTP heads

The rules of `http.g` for the heads of requests and responses, rule by rule, and
what the server takes from the syntax trees that they capture.
-/
namespace Lawd

open Library Library.Peg

namespace Htp

/-! ### The rules of `http.g` -/

def vchar (b : UInt8) : Bool := isGraph b

def sp : Rule := ch ' '

def htab : Rule := sym 0x09

def ows : Rule := .rep 0 127 (.alt sp htab)

def crlf : Rule := pair 0x0D 0x0A

def tchar : Rule := .set fun b =>
  oneOf ['!', '#', '$', '%', '&', '*', '+', '-', '.', '^', '_', '|', '~'] b ||
    b == 0x27 || b == 0x60 || isDigit b || isAlpha b

def token : Rule := .rep 1 127 tchar

def requestTarget : Rule :=
  alts (readExp .originForm UriPar.capOriginURI)
    [readExp .absoluteForm UriPar.capAbsoluteURI, readExp .authorityForm UriPar.capAuthority]

def httpName : Rule := seqs (ch 'H') [ch 'T', ch 'T', ch 'P']

def httpVersion : Rule := seqs httpName [ch '/', UriPar.digit, ch '.', UriPar.digit]

def requestLine : Rule :=
  seqs (readTerm .method token) [sp, requestTarget, sp, readTerm .version httpVersion, crlf]

def fieldContent : Rule := .set fun b => vchar b || b == 0x20 || b == 0x09

def fieldValue : Rule := .rep 0 1023 fieldContent

def headerField : Rule :=
  seqs (readTerm .fieldName token) [ch ':', ows, readTerm .fieldValue fieldValue, ows]

def parseField : Rule := readExp .field headerField

def statusCode : Rule := .rep 3 3 UriPar.digit

def reasonPhrase : Rule := .rep 0 127 (alts htab [sp, .set vchar])

def statusLine : Rule :=
  seqs (readTerm .version httpVersion)
    [sp, readUint32 .status statusCode, sp, reasonPhrase, crlf]

def headers : Rule :=
  seqs (.rep 0 1 parseField) [.rep 0 127 (.seq crlf parseField), crlf, crlf]

def requestHead : Rule := seqs requestLine [.rep 0 127 (.seq parseField crlf), crlf]

def responseHead : Rule := seqs statusLine [.rep 0 127 (.seq parseField crlf), crlf]

end Htp

/-- `law_hts_reqline_t`. -/
structure HtsReqline where
  method : List UInt8
  target : Uri
  version : List UInt8
  deriving DecidableEq, Repr

/-- The request line in a syntax tree; without one, a null pointer is read or
`law_uri_from_ast` halts. -/
def reqlineFromAst : List Node → Option HtsReqline
  | .str _ method :: .lst _ target :: .str _ version :: _ =>
    (uriFromAst target).map fun uri => ⟨method, uri, version⟩
  | _ => none

/-- The name and the value of a field, as `law_hth_next` gives them. -/
def hthField : Node → Option (List UInt8 × List UInt8)
  | .lst _ [.str _ name] => some (name, [])
  | .lst _ (.str _ name :: .str _ value :: _) => some (name, value)
  | _ => none

/-- The fields of `law_htheaders_t`, as an iteration with `law_hth_next` gives them. -/
def hthFields (list : List Node) : Option (List (List UInt8 × List UInt8)) := list.mapM hthField

/-- What one parse of a whole head gives: the request line and the fields. -/
def readHead (s : List UInt8) : Option (HtsReqline × List (List UInt8 × List UInt8)) :=
  match parse Htp.requestHead s with
  | some (nodes, []) =>
    match reqlineFromAst nodes, hthFields (nodes.drop 3) with
    | some reqline, some fields => some (reqline, fields)
    | _, _ => none
  | _ => none

end Lawd
