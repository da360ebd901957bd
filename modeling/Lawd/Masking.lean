import Lawd.Library.Transducer

/-!
# Masking of WebSocket payloads

`law_ws_xor_apply` goes over a payload in as many calls as its reader likes. The
context keeps the offset between them, of which only the remainder by the length
of the key matters, so that the counter may wrap.
-/
namespace Lawd

open Library

/-- `struct law_ws_xor`. -/
structure WsXor where
  maskingKey : Vector UInt8 4
  offset : BitVec 64
  deriving DecidableEq, Repr

/-- `law_ws_xor_init`. -/
def wsXorInit (key : Vector UInt8 4) : WsXor := ⟨key, 0⟩

/-- One turn of the loop of `law_ws_xor_apply`. -/
def wsXorByte (xor : WsXor) (b : UInt8) : WsXor × UInt8 :=
  ({ xor with offset := xor.offset + 1 }, b ^^^ xor.maskingKey[xor.offset.toNat % 4])

/-- `law_ws_xor_apply`. -/
def wsXorApply : WsXor → List UInt8 → WsXor × List UInt8 := transduce wsXorByte

/-- Calls of `law_ws_xor_apply` with one context. -/
def wsXorChunks : WsXor → List (List UInt8) → WsXor × List (List UInt8) := transduce wsXorApply

/-- A payload under a key: each byte meets the byte of the key at its position,
the key being repeated. -/
def wsMask (key : Vector UInt8 4) (payload : List UInt8) : List UInt8 :=
  payload.mapIdx fun i b => b ^^^ key[i % 4]

/-- The context of a call that begins at a position of the payload. -/
structure WsXor.At (key : Vector UInt8 4) (n : ℕ) (xor : WsXor) : Prop where
  key : xor.maskingKey = key
  phase : xor.offset.toNat % 4 = n % 4

variable {key : Vector UInt8 4}

theorem wsXorInit_at (key : Vector UInt8 4) : (wsXorInit key).At key 0 := ⟨rfl, rfl⟩

/-- A turn of the loop goes on to the next position. The size of the counter is a
multiple of the length of the key. -/
theorem wsXorByte_at {n : ℕ} {xor : WsXor} (h : xor.At key n) (b : UInt8) :
    (wsXorByte xor b).1.At key (n + 1) ∧ (wsXorByte xor b).2 = b ^^^ key[n % 4] := by
  obtain ⟨rfl, hphase⟩ := h
  refine ⟨⟨rfl, ?_⟩, ?_⟩
  · have hone : (1 : BitVec 64).toNat = 1 := rfl
    simp only [wsXorByte, BitVec.toNat_add, hone]
    omega
  · simp only [wsXorByte, hphase]

theorem wsXorChunks_mask (key : Vector UInt8 4) (chunks : List (List UInt8)) :
    (wsXorChunks (wsXorInit key) chunks).2.flatten = wsMask key chunks.flatten := by
  have hchunks := congrArg Prod.snd (transduce_flatten wsXorByte (wsXorInit key) chunks)
  have hbyte : ∀ n xor b, xor.At key n → (wsXorByte xor b).1.At key (n + 1) ∧
      (wsXorByte xor b).2 = b ^^^ key[n % 4] := fun _ _ b h => wsXorByte_at h b
  have hwhole := transduce_mapIdx hbyte (wsXorInit_at key) chunks.flatten
  simp only [Nat.zero_add] at hwhole
  exact hchunks.symm.trans hwhole

@[simp] theorem wsMask_wsMask (key : Vector UInt8 4) (payload : List UInt8) :
    wsMask key (wsMask key payload) = payload := by
  refine List.ext_getElem (by simp [wsMask]) fun i _ _ => ?_
  simp only [wsMask, List.getElem_mapIdx, UInt8.xor_assoc, UInt8.xor_self, UInt8.xor_zero]

/-- What is masked in some chunks is unmasked in any others. -/
theorem ws_xor_inverse (key : Vector UInt8 4) (chunks chunks' : List (List UInt8))
    (h : chunks'.flatten = (wsXorChunks (wsXorInit key) chunks).2.flatten) :
    (wsXorChunks (wsXorInit key) chunks').2.flatten = chunks.flatten := by
  rw [wsXorChunks_mask, h, wsXorChunks_mask, wsMask_wsMask]

theorem ws_xor_inverse_hello : (wsXorChunks (wsXorInit #v[0x37, 0xFA, 0x21, 0x3D])
    [[0x7F, 0x9F, 0x4D], [], [0x51, 0x58]]).2.flatten = [0x48, 0x65, 0x6C, 0x6C, 0x6F] :=
  ws_xor_inverse #v[0x37, 0xFA, 0x21, 0x3D] [[0x48], [0x65, 0x6C, 0x6C], [], [0x6F]]
    [[0x7F, 0x9F, 0x4D], [], [0x51, 0x58]] (by decide)

end Lawd
