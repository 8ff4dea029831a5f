import Provenance.Artifact.Basic
import Provenance.Proofs.Framing

/-!
Decoding undoes encoding. Every field of a record is framed by its reader, so records are,
and a list of records after its length; the digest in front of which all this stands is
compared with what the same hash makes of the same bytes.
-/
namespace Provenance

variable {T P : Type}

/-- The texts among the values of a layout. -/
def Values.texts : (fs : List FieldSpec) → Values T P fs → List String
  | [], _ => []
  | ⟨_, .text⟩ :: fs, (s, vs) => s :: texts fs vs
  | ⟨_, .type⟩ :: fs, (_, vs) | ⟨_, .procedure⟩ :: fs, (_, vs) | ⟨_, .digest⟩ :: fs, (_, vs)
  | ⟨_, .index⟩ :: fs, (_, vs) | ⟨_, .offset⟩ :: fs, (_, vs) | ⟨_, .flag⟩ :: fs, (_, vs) =>
    texts fs vs

def Record.texts (r : Record T P) : List String := Values.texts _ r.values

/-- The lengths in an artifact are words of 64 bits. So is the length of whatever is held in
memory, be it a list of records or the bytes of a text. -/
structure Addressable (records : List SealedRecord) : Prop where
  count : records.length < 2 ^ 64
  texts : ∀ r ∈ records, ∀ s ∈ r.texts, (utf8 s).length < 2 ^ 64

namespace Wire

theorem frames_readSymbolId (id : SymbolId) : Frames readSymbolId (word16 id.raw) id := by
  apply Frames.position
  intro _
  refine (frames_readWord16 id.raw).ends ?_
  rw [SymbolId.ofRaw?_raw]
  exact Frames.pure id

theorem frames_readIndex (n : UInt32) : Frames readIndex (unsigned n.toNat) n := by
  apply Frames.position
  intro _
  have hlt := n.toNat_lt
  refine (frames_readUnsigned (by omega)).ends ?_
  rw [if_pos hlt, UInt32.ofNat_toNat]
  exact Frames.pure n

theorem frames_readOffset (n : Int32) : Frames readOffset (signed n.toInt) n := by
  apply Frames.position
  intro _
  have hle := n.le_toInt
  have hlt := n.toInt_lt
  refine (frames_readSigned (by omega) (by omega)).ends ?_
  rw [if_pos ⟨n.minValue_le_toInt, n.toInt_le⟩, Int32.ofInt_toInt]
  exact Frames.pure n

theorem frames_readFlag (b : Bool) : Frames readFlag [if b then 1 else 0] b := by
  apply Frames.position
  intro _
  refine (frames_readByte _).ends ?_
  cases b with
  | false => exact Frames.pure false
  | true => exact Frames.pure true

theorem fromUTF8?_utf8 (s : String) : String.fromUTF8? ⟨(utf8 s).toArray⟩ = some s := by
  have hbytes : (⟨(utf8 s).toArray⟩ : ByteArray) = s.toByteArray := by
    rw [utf8, Array.toArray_toList]
  rw [hbytes, String.fromUTF8?, dif_pos s.isValidUTF8]
  rfl

theorem frames_readText {s : String} (h : (utf8 s).length < 2 ^ 64) :
    Frames readText (text s) s := by
  apply Frames.position
  intro _
  refine (frames_readUnsigned h).bind ((frames_readBytes (utf8 s)).ends ?_)
  rw [fromUTF8?_utf8]
  exact Frames.pure s

theorem frames_readDigest (d : Digest) : Frames readDigest d.bytes d := by
  intro rest position
  have hread : readBytes 32 ⟨d.bytes ++ rest, position⟩ =
      .ok d.bytes ⟨rest, position + d.bytes.length⟩ := by
    rw [← d.length_bytes]
    exact readBytes_append
  rw [readDigest]
  split
  · rename_i heq
    rw [hread] at heq
    cases heq
    rfl
  · rename_i heq
    rw [hread] at heq
    cases heq

theorem frames_readFields (fs : List FieldSpec) (vs : Values SymbolId SymbolId fs)
    (h : ∀ s ∈ Values.texts fs vs, (utf8 s).length < 2 ^ 64) :
    Frames (readFields fs) (fields fs vs) vs := by
  induction fs with
  | nil => exact Frames.pure ()
  | cons field fs ih =>
    obtain ⟨name, shape⟩ := field
    obtain ⟨v, vs⟩ := vs
    have hfield : Frames (readField shape) (Wire.field shape v) v := by
      cases shape with
      | type | procedure => exact frames_readSymbolId v
      | text => exact frames_readText (h v List.mem_cons_self)
      | digest => exact frames_readDigest v
      | index => exact frames_readIndex v
      | offset => exact frames_readOffset v
      | flag => exact frames_readFlag v
    have hrest : ∀ s ∈ Values.texts fs vs, (utf8 s).length < 2 ^ 64 := by
      intro s hs
      apply h
      cases shape with
      | text => exact List.mem_cons_of_mem v hs
      | type | procedure | digest | index | offset | flag => exact hs
    exact hfield.bind ((ih vs hrest).ends (Frames.pure (v, vs)))

theorem frames_readRecord {r : SealedRecord}
    (h : ∀ s ∈ r.texts, (utf8 s).length < 2 ^ 64) : Frames readRecord (record r) r := by
  apply Frames.position
  intro _
  refine (frames_readByte r.kind.tag).bind ?_
  rw [Kind.ofTag?_tag]
  refine (frames_readFields _ r.values h).ends ?_
  rw [Record.ofValues_values]
  exact Frames.pure r

end Wire

namespace Artifact

open Wire

theorem frames_readMany {records : List SealedRecord}
    (h : ∀ r ∈ records, ∀ s ∈ r.texts, (utf8 s).length < 2 ^ 64) :
    Frames (readMany records.length) (records.flatMap record) records := by
  induction records with
  | nil => exact Frames.pure []
  | cons r records ih =>
    have hfirst := frames_readRecord (h r List.mem_cons_self)
    have hrest := ih fun r' hr' => h r' (List.mem_cons_of_mem r hr')
    rw [List.flatMap_cons]
    exact hfirst.bind (hrest.ends (Frames.pure (r :: records)))

/-- A payload is read to its end. -/
theorem parsePayload_payload {records : List SealedRecord} (h : Addressable records) :
    parsePayload (payload records) = .ok records := by
  have hread : ∃ c, readPayload (Cursor.start (payload records)) = .ok records c := by
    rw [payload, List.append_assoc, List.append_assoc, Cursor.start, readPayload,
      (frames_readBytes magic).bind_eq, (frames_readWord16 formatVersion).bind_eq]
    show ∃ c, (readUnsigned >>= _) _ = _
    rw [(frames_readUnsigned h.count).bind_eq, ← List.append_nil (records.flatMap record),
      (frames_readMany h.texts).bind_eq]
    exact ⟨_, rfl⟩
  obtain ⟨c, hc⟩ := hread
  rw [parsePayload, hc]

/-- Whatever the hash is: a list whose lengths can be written is read back from its artifact. -/
theorem decodeWith_encodeWith (hash : Hash) {records : List SealedRecord}
    (h : Addressable records) : decodeWith hash (encodeWith hash records) = .ok records := by
  have hdigest : (hash (payload records)).bytes.length = digestLength :=
    (hash (payload records)).length_bytes
  have hfront : ∃ more, payload records = magic ++ more := by
    rw [payload, List.append_assoc, List.append_assoc]
    exact ⟨_, rfl⟩
  have hlength : (encodeWith hash records).length - digestLength = (payload records).length := by
    rw [encodeWith, sealed, List.length_append, hdigest, Nat.add_sub_cancel]
  obtain ⟨more, hmore⟩ := hfront
  have hmagic : (encodeWith hash records).take magic.length = magic := by
    rw [encodeWith, sealed, hmore, List.append_assoc, List.take_left]
  have hlong : magic.length ≤ (encodeWith hash records).length ∧
      digestLength ≤ (encodeWith hash records).length := by
    rw [encodeWith, sealed, List.length_append, hdigest, hmore, List.length_append]
    omega
  have hbody : (encodeWith hash records).take (payload records).length = payload records := by
    rw [encodeWith, sealed, List.take_left]
  have htrailer : (encodeWith hash records).drop (payload records).length =
      (hash (payload records)).bytes := by
    rw [encodeWith, sealed, List.drop_left]
  rw [decodeWith]
  simp only
  rw [if_neg (by omega), if_neg (by simp [hmagic]), if_neg (by omega), hlength, hbody, htrailer,
    if_neg (by simp)]
  exact parsePayload_payload h

theorem decode_encode_of_two :
    let records : List SealedRecord :=
      [.type ⟨3, by decide⟩ (.byName ⟨1, by decide⟩ "Object"),
        .procedure ⟨4, by decide⟩ (.virtualFromOffset ⟨3, by decide⟩ (-72) true)]
    Addressable records ∧ decode (encode records) = .ok records := by
  intro records
  have addressable : Addressable records := by
    refine ⟨by decide, ?_⟩
    intro r hr s hs
    rcases List.mem_cons.mp hr with rfl | hr
    · cases List.mem_singleton.mp hs
      decide
    · cases List.mem_singleton.mp hr
      cases hs
  exact ⟨addressable, decodeWith_encodeWith Sha256.hash addressable⟩

end Artifact

end Provenance
