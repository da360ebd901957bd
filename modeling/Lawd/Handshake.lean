import Lawd.Library.Base64
import Lawd.HeaderField
import Lawd.Response
import Lawd.WsQueue

/-!
# The WebSocket handshake

`law_ws_accept` looks up the fields of a request that ask for a WebSocket, and
answers with a head that shows that it has read the key. The digest and the encoding
of it are parameters, of which the second is known to be Base64.
-/
namespace Lawd

open Library Library.Peg

variable {B : ByteBuffer}

/-- The characters of a text. -/
def chars (text : List Char) : List UInt8 := text.map Char.toUInt8

/-- The names and values that `law_ws_accept` looks for and writes. -/
def hostName : List UInt8 := chars ['H', 'o', 's', 't']
def originName : List UInt8 := chars ['O', 'r', 'i', 'g', 'i', 'n']
def upgradeName : List UInt8 := chars ['U', 'p', 'g', 'r', 'a', 'd', 'e']
def websocketValue : List UInt8 := chars ['w', 'e', 'b', 's', 'o', 'c', 'k', 'e', 't']
def connectionName : List UInt8 :=
  chars ['C', 'o', 'n', 'n', 'e', 'c', 't', 'i', 'o', 'n']
def secWebSocket : List UInt8 :=
  chars ['S', 'e', 'c', '-', 'W', 'e', 'b', 'S', 'o', 'c', 'k', 'e', 't', '-']
def versionName : List UInt8 := secWebSocket ++ chars ['V', 'e', 'r', 's', 'i', 'o', 'n']
def version13 : List UInt8 := chars ['1', '3']
def keyName : List UInt8 := secWebSocket ++ chars ['K', 'e', 'y']
def acceptName : List UInt8 := secWebSocket ++ chars ['A', 'c', 'c', 'e', 'p', 't']
def switchingProtocols : List UInt8 :=
  chars ['S', 'w', 'i', 't', 'c', 'h', 'i', 'n', 'g', ' ', 'P', 'r', 'o', 't', 'o', 'c', 'o',
    'l', 's']

/-- `LAW_WS_MAGIC_STR`. -/
def wsMagicStr : List UInt8 :=
  chars ['2', '5', '8', 'E', 'A', 'F', 'A', '5', '-', 'E', '9', '1', '4', '-', '4', '7', 'D', 'A',
    '-', '9', '5', 'C', 'A', '-', 'C', '5', 'A', 'B', '0', 'D', 'C', '8', '5', 'B', '1', '1']

section Accept

variable (sha1 : List UInt8 → Vector UInt8 20) (encodeBlock : List UInt8 → List UInt8)

/-- What `EVP_EncodeBlock` does. -/
def EncodesBase64 : Prop := ∀ bs, encodeBlock bs = encodeBase64 bs

/-- `law_ws_gen_accept`, with `EVP_EncodeBlock` for the text of the digest. -/
def wsGenAccept (key : List UInt8) : List UInt8 := encodeBlock (sha1 (key ++ wsMagicStr)).toList

/-- The header that `law_hth_get` finds, or `LAW_ERR_WS` where it is missing. -/
def wsRequire (list : List Node) (name : List UInt8) (c : Htconn B)
    (next : List UInt8 → Option (Err × Htconn B)) : Option (Err × Htconn B) :=
  match hthGet list name with
  | none => none
  | some none => some (.ws, c)
  | some (some value) => next value

/-- The fields of the answer. -/
def wsAcceptFields (key : List UInt8) : List (List UInt8 × List UInt8) :=
  [(upgradeName, websocketValue), (connectionName, upgradeName),
    (acceptName, wsGenAccept sha1 encodeBlock key)]

/-- `law_ws_accept`; without a result, `law_hth_get` has read a string that is not
there. -/
def wsAccept (list : List Node) (c : Htconn B) : Option (Err × Htconn B) :=
  wsRequire list hostName c fun _ =>
  wsRequire list originName c fun _ =>
  wsRequire list upgradeName c fun upgrade =>
  if upgrade ≠ websocketValue then some (.ws, c)
  else wsRequire list connectionName c fun _ =>
  wsRequire list versionName c fun version =>
  if version ≠ version13 then some (.ws, c)
  else wsRequire list keyName c fun key =>
  if key.length > 24 then some (.ws, c)
  else some (htsWriteHead http11 101 switchingProtocols (wsAcceptFields sha1 encodeBlock key) c)

end Accept

/-! ### What the request asks for -/

/-- A request for a WebSocket, by the first field of each name. -/
structure AsksUpgrade (fields : List (List UInt8 × List UInt8)) (key : List UInt8) : Prop where
  host : (fields.lookup hostName).isSome
  origin : (fields.lookup originName).isSome
  upgrade : fields.lookup upgradeName = some websocketValue
  connection : (fields.lookup connectionName).isSome
  version : fields.lookup versionName = some version13
  keyed : fields.lookup keyName = some key
  size : key.length ≤ 24

section Request

variable {list : List Node} {fields : List (List UInt8 × List UInt8)} {c : Htconn B}
  {name key : List UInt8}

/-- `law_hth_get` finds the first field of a name. -/
theorem hthGet_lookup (h : hthFields list = some fields) (name : List UInt8) :
    hthGet list name = some (fields.lookup name) := by
  induction list generalizing fields with
  | nil =>
    obtain rfl := Option.some.inj h
    rfl
  | cons node list ih =>
    rw [hthFields, List.mapM_cons] at h
    obtain ⟨⟨n, value⟩, hnode, h⟩ := Option.bind_eq_some_iff.mp h
    obtain ⟨rest, hrest, h⟩ := Option.bind_eq_some_iff.mp h
    obtain rfl := Option.some.inj h
    have hpair : pairName node = some n ∧ pairValue node = some value := by
      unfold hthField at hnode
      split at hnode
      · obtain ⟨rfl, rfl⟩ := Prod.mk.inj (Option.some.inj hnode)
        exact ⟨rfl, rfl⟩
      · obtain ⟨rfl, rfl⟩ := Prod.mk.inj (Option.some.inj hnode)
        exact ⟨rfl, rfl⟩
      · cases hnode
    rw [hthGet, pairGet, hpair.1]
    by_cases hname : n = name
    · simp [hname, hpair.2]
    · have hne : (name == n) = false := by simpa using Ne.symm hname
      simp only [if_neg hname, List.lookup_cons, hne]
      exact ih hrest

theorem wsRequire_none {next : List UInt8 → Option (Err × Htconn B)}
    (h : hthFields list = some fields) (hname : fields.lookup name = none) :
    wsRequire list name c next = some (.ws, c) := by
  rw [wsRequire, hthGet_lookup h, hname]

theorem wsRequire_some {next : List UInt8 → Option (Err × Htconn B)} {value : List UInt8}
    (h : hthFields list = some fields) (hname : fields.lookup name = some value) :
    wsRequire list name c next = next value := by
  rw [wsRequire, hthGet_lookup h, hname]

/-- The answer to a request that asks for a WebSocket is written, and any other
request refused. -/
theorem wsAccept_cases (sha1 : List UInt8 → Vector UInt8 20)
    (encodeBlock : List UInt8 → List UInt8) (h : hthFields list = some fields) (c : Htconn B) :
    (∃ key, AsksUpgrade fields key ∧ wsAccept sha1 encodeBlock list c =
      some (htsWriteHead http11 101 switchingProtocols (wsAcceptFields sha1 encodeBlock key) c)) ∨
    ((¬ ∃ key, AsksUpgrade fields key) ∧ wsAccept sha1 encodeBlock list c = some (.ws, c)) := by
  unfold wsAccept
  rcases hhost : fields.lookup hostName with _ | host
  · exact .inr ⟨fun ⟨_, ha⟩ => by simpa [hhost] using ha.host, wsRequire_none h hhost⟩
  rw [wsRequire_some h hhost]
  rcases horigin : fields.lookup originName with _ | origin
  · exact .inr ⟨fun ⟨_, ha⟩ => by simpa [horigin] using ha.origin, wsRequire_none h horigin⟩
  rw [wsRequire_some h horigin]
  rcases hupgrade : fields.lookup upgradeName with _ | upgrade
  · exact .inr ⟨fun ⟨_, ha⟩ => by simpa [hupgrade] using ha.upgrade, wsRequire_none h hupgrade⟩
  rw [wsRequire_some h hupgrade]
  by_cases hwebsocket : upgrade = websocketValue
  swap
  · exact .inr ⟨fun ⟨_, ha⟩ => hwebsocket (by simpa [hupgrade] using ha.upgrade),
      if_pos hwebsocket⟩
  rw [if_neg (not_not_intro hwebsocket)]
  rcases hconnection : fields.lookup connectionName with _ | connection
  · exact .inr ⟨fun ⟨_, ha⟩ => by simpa [hconnection] using ha.connection,
      wsRequire_none h hconnection⟩
  rw [wsRequire_some h hconnection]
  rcases hversion : fields.lookup versionName with _ | version
  · exact .inr ⟨fun ⟨_, ha⟩ => by simpa [hversion] using ha.version, wsRequire_none h hversion⟩
  rw [wsRequire_some h hversion]
  by_cases h13 : version = version13
  swap
  · exact .inr ⟨fun ⟨_, ha⟩ => h13 (by simpa [hversion] using ha.version), if_pos h13⟩
  rw [if_neg (not_not_intro h13)]
  rcases hkey : fields.lookup keyName with _ | key
  · exact .inr ⟨fun ⟨_, ha⟩ => by simpa [hkey] using ha.keyed, wsRequire_none h hkey⟩
  rw [wsRequire_some h hkey]
  by_cases hlong : key.length > 24
  · refine .inr ⟨fun ⟨key', ha⟩ => ?_, if_pos hlong⟩
    obtain rfl : key = key' := by simpa [hkey] using ha.keyed
    exact absurd ha.size (Nat.not_le.mpr hlong)
  · exact .inl ⟨key, ⟨by simp [hhost], by simp [horigin], by rw [hupgrade, hwebsocket],
      by simp [hconnection], by rw [hversion, h13], hkey, Nat.not_lt.mp hlong⟩, if_neg hlong⟩

theorem AsksUpgrade.unique {key' : List UInt8} (h : AsksUpgrade fields key)
    (h' : AsksUpgrade fields key') : key = key' :=
  Option.some.inj (h.keyed.symm.trans h'.keyed)

end Request

/-! ### The answer -/

theorem isHeader_of_graph {field : List UInt8 × List UInt8}
    (hname : parse Htp.token field.1 = some ([], [])) (hlen : field.2.length ≤ 1023)
    (hgraph : ∀ b ∈ field.2, isGraph b = true) : IsHeader field := by
  refine ⟨hname, hlen, fun b hb => ?_, fun b hb => ?_⟩
  · simp [isText, hgraph b hb]
  · have hb' := hgraph b (List.mem_of_mem_head? hb)
    constructor <;> rintro rfl <;> revert hb' <;> decide

section Answer

variable (sha1 : List UInt8 → Vector UInt8 20) {encodeBlock : List UInt8 → List UInt8}
  (hencode : EncodesBase64 encodeBlock) (key : List UInt8)

/-- The text of the answer. -/
def wsAcceptText (encodeBlock : List UInt8 → List UInt8) : List UInt8 :=
  headText http11 101 switchingProtocols (wsAcceptFields sha1 encodeBlock key)

include hencode

@[simp] theorem wsGenAccept_length : (wsGenAccept sha1 encodeBlock key).length = 28 := by
  rw [wsGenAccept, hencode, encodeBase64_length, Vector.length_toList]

@[simp] theorem wsAcceptText_length : (wsAcceptText sha1 key encodeBlock).length = 129 := by
  have hstatus : (statusText http11 101 switchingProtocols).length = 34 := by decide
  have hupgrade : (headerText upgradeName websocketValue).length = 18 := by decide
  have hconnection : (headerText connectionName upgradeName).length = 19 := by decide
  have haccept : (headerText acceptName (wsGenAccept sha1 encodeBlock key)).length = 50 := by
    rw [headerText, List.length_append, List.length_cons, List.length_cons,
      wsGenAccept_length sha1 hencode]
    rfl
  simp only [wsAcceptText, headText, wsAcceptFields, List.flatMap_cons, List.flatMap_nil,
    List.length_append, hstatus, hupgrade, hconnection, haccept, List.length_cons, List.length_nil]

theorem wsAcceptFields_isHeader :
    ∀ field ∈ wsAcceptFields sha1 encodeBlock key, IsHeader field := by
  have hupgrade : IsHeader (upgradeName, websocketValue) :=
    isHeader_of_graph rfl (by decide) (List.all_eq_true.mp (by decide))
  have hconnection : IsHeader (connectionName, upgradeName) :=
    isHeader_of_graph rfl (by decide) (List.all_eq_true.mp (by decide))
  have haccept : IsHeader (acceptName, wsGenAccept sha1 encodeBlock key) := by
    refine isHeader_of_graph rfl ?_ fun b hb => ?_
    · rw [wsGenAccept_length sha1 hencode]
      decide
    · rw [wsGenAccept, hencode] at hb
      obtain ⟨hlow, hhigh⟩ := visible_of_mem_encode hb
      simp [isGraph, hlow, hhigh]
  simp only [wsAcceptFields, List.forall_mem_cons]
  exact ⟨hupgrade, hconnection, haccept, by simp⟩

theorem parse_wsAcceptText : parse Htp.responseHead (wsAcceptText sha1 key encodeBlock) =
    some (.str .version http11 :: .num .status 101 ::
      (wsAcceptFields sha1 encodeBlock key).map fieldNode, []) :=
  parse_headText (n := 101) rfl (by decide) (by decide) (by decide)
    (List.all_eq_true.mp (by decide)) (by simp [wsAcceptFields])
    (wsAcceptFields_isHeader sha1 hencode key)

end Answer

section Room

theorem htcPrintf_err (s : List UInt8) (c : Htconn B) :
    (htcPrintf s c).1 = .ok ∨ (htcPrintf s c).1 = .oob := by
  unfold htcPrintf bufPrintf
  cases B.print c.output s with
  | some _ => exact .inl rfl
  | none => exact .inr rfl

theorem htsBeginBody_err (c : Htconn B) :
    (htsBeginBody c).1 = .ok ∨ (htsBeginBody c).1 = .oob := by
  obtain ⟨-, output, hput, -⟩ | ⟨-, hput⟩ := htcPut_cases c [0x0D, 0x0A]
  · exact .inl (congrArg Prod.fst hput)
  · exact .inr (congrArg Prod.fst hput)

variable (version : List UInt8) (status : ℤ) (reason : List UInt8)
  (fields : List (List UInt8 × List UInt8))

theorem htsWriteHead_err (c : Htconn B) : (htsWriteHead version status reason fields c).1 = .ok ∨
    (htsWriteHead version status reason fields c).1 = .oob :=
  let P := fun e : Err => e = .ok ∨ e = .oob
  have hfields := forEach_of (P := P) (.inl rfl) (fun _ => htcPrintf_err _) fields
  andThen_of (P := P) (htcPrintf_err _) (andThen_of hfields htsBeginBody_err) c

theorem emitsPart_htsWriteHead :
    EmitsPart .ok (outputRoom (B := B)) (fun c => B.unread c.output)
      (headText version status reason fields) (htsWriteHead version status reason fields) := by
  have hfields := (EmitsPart.forEach (fun field => emitsPart_htcPrintf (B := B)
    (headerText field.1 field.2 ++ [0x0D, 0x0A])) fields).andThen (emitsPart_htcPut [0x0D, 0x0A])
  exact (emitsPart_htcPrintf _).andThen hfields

end Room

/-- A request for a WebSocket is answered if and only if there is room for the 129
bytes of the answer: the other end reads status 101 and three fields, of which the
last is the text of the digest of its key. With less room, the call is out of bounds
and leaves a first part of the answer, of which the last byte may be another where
the part takes all the room. Any other request is refused, with the connection as it
was. -/
theorem ws_handshake (B : ByteBuffer) (sha1 : List UInt8 → Vector UInt8 20)
    {encodeBlock : List UInt8 → List UInt8} (hencode : EncodesBase64 encodeBlock)
    {list : List Node} {fields : List (List UInt8 × List UInt8)} (h : hthFields list = some fields)
    (c : Htconn B) :
    ∃ e c', wsAccept sha1 encodeBlock list c = some (e, c') ∧
      (∀ key, AsksUpgrade fields key →
        (e = .ok ↔ 129 ≤ c.room) ∧
        (e = .ok → ∃ text nodes, B.unread c'.output = B.unread c.output ++ text ∧
          parse Htp.responseHead text =
            some (.str .version http11 :: .num .status 101 :: nodes, []) ∧
          hthFields nodes = some (wsAcceptFields sha1 encodeBlock key) ∧
          decodeBase64 (wsGenAccept sha1 encodeBlock key) =
            (sha1 (key ++ wsMagicStr)).toList) ∧
        (e ≠ .ok → e = .oob ∧ ∃ part, B.unread c'.output = B.unread c.output ++ part ∧
          (part <+: wsAcceptText sha1 key encodeBlock ∨
            part.length = c.room ∧ part.dropLast <+: wsAcceptText sha1 key encodeBlock))) ∧
      ((∀ key, ¬ AsksUpgrade fields key) → e = .ws ∧ c' = c) := by
  rcases wsAccept_cases sha1 encodeBlock h c with ⟨key, hasks, hrun⟩ | ⟨hnone, hrun⟩
  · refine ⟨_, _, hrun, fun key' hasks' => ?_, fun hnone => absurd hasks (hnone key)⟩
    obtain rfl := hasks.unique hasks'
    refine ⟨?_, fun hok => ?_, fun hfails => ?_⟩
    · rw [← wsAcceptText_length sha1 hencode key]
      exact htsWriteHead_ok_iff _ _ _ _ c
    · refine ⟨_, _, emits_htsWriteHead _ _ _ _ c hok, parse_wsAcceptText sha1 hencode key,
        hthFields_fieldNode _, ?_⟩
      rw [wsGenAccept, hencode]
      exact decodeBase64_encode _
    · obtain ⟨part, htext, hroom, hpart, -⟩ := emitsPart_htsWriteHead http11 101
        switchingProtocols (wsAcceptFields sha1 encodeBlock key) c
      refine ⟨(htsWriteHead_err _ _ _ _ c).resolve_left hfails, part, htext, ?_⟩
      exact hpart.imp id fun hfull =>
        ⟨by rw [← Nat.zero_add part.length, ← hfull.1]; exact hroom.symm,
        hfull.2⟩
  · exact ⟨.ws, c, hrun, fun key hasks => absurd ⟨key, hasks⟩ hnone, fun _ => ⟨rfl, rfl⟩⟩

/-- A request with the key of the protocol's own example. -/
def sampleKey : List UInt8 :=
  chars ['d', 'G', 'h', 'l', 'I', 'H', 'N', 'h', 'b', 'X', 'B', 's', 'Z', 'S', 'B', 'u', 'b', '2',
    '5', 'j', 'Z', 'Q', '=', '=']

def sampleFields : List (List UInt8 × List UInt8) :=
  [(hostName, chars ['a']), (originName, chars ['b']), (upgradeName, websocketValue),
    (connectionName, upgradeName), (versionName, version13), (keyName, sampleKey)]

/-- The digest of that key. -/
def sampleDigest : Vector UInt8 20 :=
  #v[0xB3, 0x7A, 0x4F, 0x2C, 0xC0, 0x62, 0x4F, 0x16, 0x90, 0xF6, 0x46, 0x06, 0xCF, 0x38, 0x59, 0x45,
    0xB2, 0xBE, 0xC4, 0xEA]

theorem sampleConn_size : 256 < 2 ^ 64 := by decide

def sampleConn : Htconn Ring.buffer :=
  ⟨.unsecured, Ring.init 256 sampleConn_size, Ring.init 256 sampleConn_size, ⟨[], [], []⟩⟩

theorem ws_handshake_sample : ∃ c' text nodes,
    wsAccept (fun _ => sampleDigest) encodeBase64 (sampleFields.map fieldNode) sampleConn =
        some (.ok, c') ∧
      Ring.buffer.unread c'.output = text ∧
      parse Htp.responseHead text =
        some (.str .version http11 :: .num .status 101 :: nodes, []) ∧
      hthFields nodes = some (wsAcceptFields (fun _ => sampleDigest) encodeBase64 sampleKey) := by
  have hasks : AsksUpgrade sampleFields sampleKey :=
    ⟨by decide, by decide, by decide, by decide, by decide, by decide, by decide⟩
  obtain ⟨e, c', hrun, hanswer, -⟩ := ws_handshake Ring.buffer (fun _ => sampleDigest)
    (fun _ => rfl : EncodesBase64 encodeBase64) (hthFields_fieldNode sampleFields) sampleConn
  obtain ⟨hok, htext, -⟩ := hanswer sampleKey hasks
  obtain rfl : e = .ok := hok.mpr (by decide)
  obtain ⟨text, nodes, hunread, hparse, hfields, -⟩ := htext rfl
  exact ⟨c', text, nodes, hrun, hunread, hparse, hfields⟩

example : wsGenAccept (fun _ => sampleDigest) encodeBase64 sampleKey =
    chars ['s', '3', 'p', 'P', 'L', 'M', 'B', 'i', 'T', 'x', 'a', 'Q', '9', 'k', 'Y', 'G', 'z', 'z',
      'h', 'Z', 'R', 'b', 'K', '+', 'x', 'O', 'o', '='] := by
  decide

end Lawd
