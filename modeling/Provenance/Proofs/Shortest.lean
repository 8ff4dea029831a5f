import Provenance.Proofs.Truncation

/-!
Nothing accepted is shorter than what is written. A reader also takes integers that are longer than
they have to be, but an integer of as many groups as were read is never written in more, and all
else has one form. So whatever is accepted is accepted in the form it is written in too, which takes
no more bytes.
-/
namespace Provenance

namespace Wire

theorem length_unsigned_le {more n : Nat} (h : n < 128 ^ (more + 1)) :
    (unsigned n).length ≤ more + 1 := by
  induction more generalizing n with
  | zero =>
    rw [unsigned, if_pos (by omega)]
    exact Nat.le_refl 1
  | succ more ih =>
    have rest : n / 128 < 128 ^ (more + 1) := by
      rw [Nat.pow_succ] at h
      exact Nat.div_lt_of_lt_mul (by rwa [Nat.mul_comm] at h)
    rw [unsigned]
    split
    · exact Nat.le_add_left 1 _
    · exact Nat.succ_le_succ (ih rest)

theorem length_signed_le {more : Nat} {v : Int} (lo : -(64 * 128 ^ more) ≤ v)
    (hi : v < 64 * 128 ^ more) : (signed v).length ≤ more + 1 := by
  induction more generalizing v with
  | zero =>
    rw [signed, if_pos (by omega)]
    exact Nat.le_refl 1
  | succ more ih =>
    rw [Int.pow_succ] at lo hi
    rw [signed]
    split
    · exact Nat.le_add_left 1 _
    · exact Nat.succ_le_succ (ih (by omega) (by omega))

/-- What was read of an integer: the groups after the first, and what all of them make up. -/
theorem groupsFrom_ok {tenth start width value place : Nat} {bytes : List UInt8} {g : Groups}
    {c : Cursor} (h : groupsFrom tenth start width value place bytes = .ok g c) :
    ∃ more v, bytes.length = more + 1 + c.rest.length ∧ width + 7 * more ≤ 63 ∧
      v < 128 ^ (more + 1) ∧ (width + 7 * more = 63 → v < tenth * 128 ^ more) ∧
      g = ⟨value + v * 2 ^ width, width + 7 * (more + 1), 64 * 128 ^ more ≤ v⟩ := by
  induction bytes generalizing width value place with
  | nil => cases h
  | cons b bytes ih =>
    rw [groupsFrom] at h
    split at h
    · cases h
    rename_i hfits
    split at h
    · rename_i hlast
      cases h
      have hgroup : b.toNat % 128 = b.toNat := Nat.mod_eq_of_lt hlast
      rw [hgroup] at hfits
      refine ⟨0, b.toNat, by simp [Nat.add_comm], by omega, by omega, by omega, ?_⟩
      rw [hgroup, Nat.shiftLeft_eq, Nat.pow_zero, Nat.mul_one]
    · obtain ⟨more, v, hlength, hwidth, hv, htenth, rfl⟩ := ih h
      have hgroup : b.toNat % 128 < 128 := Nat.mod_lt _ (by decide)
      refine ⟨more + 1, b.toNat % 128 + v * 128, ?_, by omega, ?_, fun hlate => ?_, ?_⟩
      · rw [List.length_cons, hlength]
        omega
      · rw [Nat.pow_succ]
        omega
      · have := htenth (by omega)
        rw [Nat.pow_succ, ← Nat.mul_assoc]
        omega
      · rw [Nat.shiftLeft_eq, Nat.pow_add, Nat.pow_succ 128 more]
        congr 1
        · ring
        · omega
        · exact decide_eq_decide.mpr (by omega)

/-- What is read as an unsigned integer has 64 bits, and at least the bytes were read that it is
written in. -/
theorem readUnsigned_ok {c c' : Cursor} {n : Nat} (h : readUnsigned c = .ok n c') :
    n < 2 ^ 64 ∧ (unsigned n).length + c'.rest.length ≤ c.rest.length := by
  obtain ⟨g, between, hgroups, hn⟩ := of_bind_ok h
  cases hn
  obtain ⟨more, v, hlength, hwidth, hv, htenth, rfl⟩ := groupsFrom_ok hgroups
  have hvalue : 0 + v * 2 ^ 0 = v := by omega
  rw [hvalue, hlength]
  refine ⟨?_, Nat.add_le_add_right (length_unsigned_le hv) _⟩
  rcases Nat.lt_or_ge more 9 with few | many
  · exact (hv.trans_le (Nat.pow_le_pow_right (by decide) few)).trans (by decide)
  · obtain rfl : more = 9 := by omega
    exact htenth rfl

/-- The last group tells the sign, so the number is between the least and the largest that the
groups have room for. -/
theorem signed_groups {more n : Nat} (hn : n < 128 ^ (more + 1)) :
    -(64 * 128 ^ more) ≤ Groups.signed ⟨n, 7 * (more + 1), 64 * 128 ^ more ≤ n⟩ ∧
      Groups.signed ⟨n, 7 * (more + 1), 64 * 128 ^ more ≤ n⟩ < 64 * 128 ^ more := by
  have hpow : 2 ^ (7 * (more + 1)) = 128 ^ more * 128 := by rw [Nat.pow_mul, ← Nat.pow_succ]
  have hcast : ((128 ^ more : Nat) : Int) = 128 ^ more := by push_cast; rfl
  rw [Nat.pow_succ] at hn
  rw [Groups.signed, Nat.one_shiftLeft, hpow]
  by_cases hneg : 64 * 128 ^ more ≤ n
  · simp only [hneg, decide_true, if_true]
    omega
  · simp only [hneg, decide_false, Bool.false_eq_true, if_false]
    omega

/-- What is read as a signed integer has 64 bits, and at least the bytes were read that it is
written in. -/
theorem readSigned_ok {c c' : Cursor} {v : Int} (h : readSigned c = .ok v c') :
    (-2 ^ 63 ≤ v ∧ v < 2 ^ 63) ∧ (signed v).length + c'.rest.length ≤ c.rest.length := by
  obtain ⟨g, between, hgroups, hv⟩ := of_bind_ok h
  cases hv
  obtain ⟨more, n, hlength, hwidth, hn, -, rfl⟩ := groupsFrom_ok hgroups
  obtain ⟨lo, hi⟩ := signed_groups hn
  rw [show 0 + n * 2 ^ 0 = n by omega, show 0 + 7 * (more + 1) = 7 * (more + 1) by omega, hlength]
  generalize Groups.signed ⟨n, 7 * (more + 1), 64 * 128 ^ more ≤ n⟩ = v at lo hi ⊢
  have low : -2 ^ 63 ≤ v.bmod UInt64.size := Int.le_bmod (by decide)
  have high : v.bmod UInt64.size < 2 ^ 63 := Int.bmod_lt (by decide)
  refine ⟨⟨low, high⟩, Nat.add_le_add_right ?_ _⟩
  rcases Nat.lt_or_ge more 9 with few | many
  · have room : (128 : Int) ^ more ≤ 128 ^ 8 :=
      pow_le_pow_right₀ (by decide) (Nat.le_of_lt_succ few)
    have same : v.bmod UInt64.size = v :=
      Int.bmod_eq_of_le (by unfold UInt64.size; omega) (by unfold UInt64.size; omega)
    rw [same]
    exact length_signed_le lo hi
  · -- Only ten groups have bits above those that are kept, and ten have room for all of these.
    obtain rfl : more = 9 := by omega
    exact length_signed_le (by omega) (by omega)

variable {α β : Type}

/-- Whatever the reader accepts it also accepts in a form of this kind, wherever it stands, and that
takes no more bytes than were read. -/
def Shortens (reader : Nat → Reader α) (form : α → List UInt8 → Prop) : Prop :=
  ∀ ⦃start c a c'⦄, reader start c = .ok a c' →
    ∃ bytes, form a bytes ∧ (∀ start', Frames (reader start') bytes a) ∧
      bytes.length + c'.rest.length ≤ c.rest.length

theorem Shortens.pure {form : α → List UInt8 → Prop} {a : α} (h : form a []) :
    Shortens (fun _ => pure a) form := by
  intro _ c _ c' hrun
  cases hrun
  exact ⟨[], h, fun _ => Frames.pure a, (Nat.zero_add _).le⟩

theorem Shortens.throw (e : Nat → DecodeError) {form : α → List UInt8 → Prop} :
    Shortens (fun start => (throw (e start) : Reader α)) form := by
  intro _ _ _ _ hrun
  cases hrun

theorem Shortens.bind {reader : Nat → Reader α} {next : Nat → α → Reader β}
    {form : α → List UInt8 → Prop} {whole : β → List UInt8 → Prop} (h : Shortens reader form)
    (hnext : ∀ a bytes, form a bytes →
      Shortens (fun start => next start a) fun b more => whole b (bytes ++ more)) :
    Shortens (fun start => reader start >>= next start) whole := by
  intro start c b c' hrun
  obtain ⟨a, between, hfirst, hsecond⟩ := of_bind_ok hrun
  obtain ⟨bytes, hform, hframes, hlength⟩ := h hfirst
  obtain ⟨more, hwhole, hframes', hlength'⟩ := hnext a bytes hform hsecond
  refine ⟨bytes ++ more, hwhole, fun start' => (hframes start').bind (hframes' start'), ?_⟩
  rw [List.length_append]
  omega

theorem Shortens.position {next : Nat → Reader β} {form : β → List UInt8 → Prop}
    (h : Shortens next form) : Shortens (fun _ => position >>= next) form := by
  intro _ c b c' hrun
  obtain ⟨bytes, hform, hframes, hlength⟩ :=
    h (show next c.position c = .ok b c' from hrun)
  exact ⟨bytes, hform, fun _ => Frames.position hframes, hlength⟩

theorem shortens_readBytes (n : Nat) :
    Shortens (fun _ => readBytes n) fun taken bytes => bytes = taken ∧ taken.length = n := by
  intro _ c taken c' h
  have hlength := length_of_readBytes h
  obtain ⟨htaken, hleft⟩ := take_of_readBytes h
  refine ⟨taken, ⟨rfl, hlength⟩, fun _ => hlength ▸ frames_readBytes taken, ?_⟩
  rw [htaken, hleft, ← List.length_append, List.take_append_drop]

theorem shortens_readByte : Shortens (fun _ => readByte) fun b bytes => bytes = [b] := by
  rintro _ ⟨rest, position⟩ b c' h
  cases rest with
  | nil => cases h
  | cons b rest =>
    cases h
    exact ⟨[b], rfl, fun _ => frames_readByte b, (Nat.add_comm 1 _).le⟩

theorem shortens_readWord16 : Shortens (fun _ => readWord16) fun w bytes => bytes = word16 w := by
  intro _ c w c' h
  obtain ⟨taken, between, hread, hw⟩ := of_bind_ok h
  cases hw
  have hlength := length_of_readBytes hread
  obtain ⟨htaken, hleft⟩ := take_of_readBytes hread
  refine ⟨_, rfl, fun _ => frames_readWord16 _, ?_⟩
  have split := congrArg List.length (List.take_append_drop 2 c.rest)
  rw [← htaken, ← hleft, List.length_append, hlength] at split
  exact split.le

theorem shortens_readUnsigned :
    Shortens (fun _ => readUnsigned) fun n bytes => bytes = unsigned n := by
  intro _ c n c' h
  obtain ⟨hn, hlength⟩ := readUnsigned_ok h
  exact ⟨_, rfl, fun _ => frames_readUnsigned hn, hlength⟩

theorem shortens_readSigned : Shortens (fun _ => readSigned) fun v bytes => bytes = signed v := by
  intro _ c v c' h
  obtain ⟨⟨lo, hi⟩, hlength⟩ := readSigned_ok h
  exact ⟨_, rfl, fun _ => frames_readSigned lo hi, hlength⟩

theorem shortens_readSymbolId :
    Shortens (fun _ => readSymbolId) fun id bytes => bytes = word16 id.raw := by
  apply Shortens.position
  apply shortens_readWord16.bind
  rintro w _ rfl
  cases hid : SymbolId.ofRaw? w with
  | some id => exact .pure (by rw [List.append_nil, SymbolId.ofRaw?_eq_some.mp hid])
  | none => exact .throw DecodeError.zeroSymbolId

theorem shortens_readIndex :
    Shortens (fun _ => readIndex) fun n bytes => bytes = unsigned n.toNat := by
  apply Shortens.position
  apply shortens_readUnsigned.bind
  rintro n _ rfl
  by_cases hfits : n < UInt32.size
  · simp only [if_pos hfits]
    exact .pure (by rw [List.append_nil, UInt32.toNat_ofNat_of_lt' hfits])
  · simp only [if_neg hfits]
    exact .throw DecodeError.integerOverflow

theorem shortens_readOffset :
    Shortens (fun _ => readOffset) fun n bytes => bytes = signed n.toInt := by
  apply Shortens.position
  apply shortens_readSigned.bind
  rintro v _ rfl
  by_cases hfits : Int32.minValue.toInt ≤ v ∧ v ≤ Int32.maxValue.toInt
  · simp only [if_pos hfits]
    have same := Int32.toInt_ofInt_of_le hfits.1 (Int.lt_add_one_of_le hfits.2)
    exact .pure (by rw [List.append_nil, same])
  · simp only [if_neg hfits]
    exact .throw DecodeError.integerOverflow

theorem shortens_readFlag :
    Shortens (fun _ => readFlag) fun b bytes => bytes = [if b then 1 else 0] := by
  apply Shortens.position
  apply shortens_readByte.bind
  rintro b _ rfl
  by_cases hzero : b = 0
  · simp only [if_pos hzero]
    exact .pure (by rw [hzero]; rfl)
  · simp only [if_neg hzero]
    by_cases hone : b = 1
    · simp only [if_pos hone]
      exact .pure (by rw [hone]; rfl)
    · simp only [if_neg hone]
      exact .throw fun start => DecodeError.invalidBool start b

theorem utf8_of_fromUTF8? {bytes : List UInt8} {s : String}
    (h : String.fromUTF8? ⟨bytes.toArray⟩ = some s) : utf8 s = bytes := by
  rw [String.fromUTF8?] at h
  split at h
  · cases h
    rfl
  · cases h

theorem shortens_readText : Shortens (fun _ => readText) fun s bytes => bytes = text s := by
  apply Shortens.position
  apply shortens_readUnsigned.bind
  rintro length _ rfl
  apply (shortens_readBytes length).bind
  rintro _ bytes ⟨rfl, hlength⟩
  cases hs : String.fromUTF8? ⟨bytes.toArray⟩ with
  | some s => exact .pure (by rw [List.append_nil, text, utf8_of_fromUTF8? hs, hlength])
  | none => exact .throw DecodeError.invalidUtf8

theorem shortens_readDigest : Shortens (fun _ => readDigest) fun d bytes => bytes = d.bytes := by
  intro start c d c' h
  obtain ⟨bytes, ⟨rfl, -⟩, -, hlength⟩ := @shortens_readBytes 32 start _ _ _ (readDigest_ok.mp h)
  exact ⟨_, rfl, fun _ => frames_readDigest d, hlength⟩

theorem shortens_readField (shape : Shape) :
    Shortens (fun _ => readField shape) fun v bytes => bytes = field shape v := by
  cases shape with
  | type | procedure => exact shortens_readSymbolId
  | text => exact shortens_readText
  | digest => exact shortens_readDigest
  | index => exact shortens_readIndex
  | offset => exact shortens_readOffset
  | flag => exact shortens_readFlag

theorem shortens_readFields (fs : List FieldSpec) :
    Shortens (fun _ => readFields fs) fun vs bytes => bytes = fields fs vs := by
  induction fs with
  | nil => exact .pure rfl
  | cons f fs ih =>
    apply (shortens_readField f.shape).bind
    rintro v _ rfl
    apply ih.bind
    rintro vs _ rfl
    exact .pure (by rw [List.append_nil]; rfl)

theorem record_ofValues (k : Kind) (vs : Values SymbolId SymbolId k.fields) :
    record (Record.ofValues k vs) = k.tag :: fields k.fields vs := by
  cases k <;> rfl

theorem shortens_readRecord :
    Shortens (fun _ => readRecord) fun r bytes => bytes = record r := by
  apply Shortens.position
  apply shortens_readByte.bind
  rintro tag _ rfl
  cases hk : Kind.ofTag? tag with
  | none => exact .throw fun start => DecodeError.unknownKind start tag
  | some k =>
    apply (shortens_readFields k.fields).bind
    rintro vs _ rfl
    exact .pure (by rw [List.append_nil, record_ofValues, Kind.tag_of_ofTag? hk]; rfl)

end Wire

namespace Artifact

open Wire

theorem shortens_readMany (count : Nat) : Shortens (fun _ => readMany count)
    fun records bytes => bytes = records.flatMap record ∧ records.length = count := by
  induction count with
  | zero => exact .pure ⟨rfl, rfl⟩
  | succ count ih =>
    apply shortens_readRecord.bind
    rintro r _ rfl
    apply ih.bind
    rintro records _ ⟨rfl, hcount⟩
    exact .pure ⟨by rw [List.append_nil, List.flatMap_cons], by rw [List.length_cons, hcount]⟩

/-- A payload after its magic. -/
def readCounted : Reader (List SealedRecord) := do
  let version ← readWord16
  if version ≠ formatVersion then throw (.unsupportedVersion version)
  let count ← readUnsigned
  readMany count

theorem shortens_readCounted : Shortens (fun _ => readCounted) fun records bytes =>
    bytes = word16 formatVersion ++ (unsigned records.length ++ records.flatMap record) := by
  apply shortens_readWord16.bind
  rintro version _ rfl
  have counted : Shortens (fun _ => readUnsigned >>= readMany) fun records bytes =>
      bytes = unsigned records.length ++ records.flatMap record := by
    apply shortens_readUnsigned.bind
    rintro count _ rfl start c records c' h
    obtain ⟨_, ⟨rfl, rfl⟩, hframes, hlength⟩ := @shortens_readMany count start _ _ _ h
    exact ⟨_, rfl, hframes, hlength⟩
  by_cases hversion : version = formatVersion
  · subst hversion
    intro start c records c' h
    obtain ⟨_, rfl, hframes, hlength⟩ := @counted start _ _ _ h
    exact ⟨_, rfl, hframes, hlength⟩
  · intro start c records c' h
    simp only [if_pos hversion] at h
    cases h

variable {hash : Hash} {body bytes : List UInt8} {records : List SealedRecord}

/-- A payload that is accepted is accepted as it is written, too. -/
theorem shortens_payload (h : parsePayload body = .ok records) :
    parsePayload (payload records) = .ok records ∧
      (payload records).length ≤ body.length := by
  have hbody := (accepted_body h).1 [] 0
  rw [List.append_nil] at hbody
  obtain ⟨front, between, hfront, hcounted⟩ := of_bind_ok hbody
  obtain ⟨_, rfl, hframes, hlength⟩ := @shortens_readCounted 0 _ _ _ hcounted
  have hpayload : payload records = magic ++ (word16 formatVersion ++
      (unsigned records.length ++ records.flatMap record)) := by
    simp only [payload, List.append_assoc]
  constructor
  · have hwritten : Frames readBody (payload records) records := by
      rw [hpayload]
      exact (frames_readBytes magic).bind (hframes 0)
    have hread := hwritten [] 0
    rw [List.append_nil] at hread
    exact (parsePayload_of_body hread).trans (if_pos rfl)
  · obtain ⟨htaken, hleft⟩ := take_of_readBytes hfront
    have hfour := length_of_readBytes hfront
    have hsplit := congrArg List.length (List.take_append_drop magic.length body)
    rw [List.length_append, ← htaken, ← hleft, hfour] at hsplit
    rw [hpayload, List.length_append]
    omega

/-- Whatever the hash is: the artifact that is written of a list is accepted for it if any is, and
no artifact that is accepted for the list is shorter. Nor is anything that is read as an integer of
64 bits shorter than what is written of the integer. -/
theorem written_is_shortest (hash : Hash) :
    (∀ bytes records, decodeWith hash bytes = .ok records →
      decodeWith hash (encodeWith hash records) = .ok records ∧
        (encodeWith hash records).length ≤ bytes.length) ∧
    (∀ n < 2 ^ 64, Frames readUnsigned (unsigned n) n ∧
      ∀ bytes rest place place', readUnsigned ⟨bytes ++ rest, place⟩ = .ok n ⟨rest, place'⟩ →
        (unsigned n).length ≤ bytes.length) ∧
    ∀ v, -2 ^ 63 ≤ v → v < 2 ^ 63 → Frames readSigned (signed v) v ∧
      ∀ bytes rest place place', readSigned ⟨bytes ++ rest, place⟩ = .ok v ⟨rest, place'⟩ →
        (signed v).length ≤ bytes.length := by
  refine ⟨fun bytes records h => ?_, fun n hn => ⟨frames_readUnsigned hn, ?_⟩,
    fun v lo hi => ⟨frames_readSigned lo hi, ?_⟩⟩
  · obtain ⟨body, rfl, -, hparse⟩ := sealed_of_decodeWith h
    obtain ⟨again, hlength⟩ := shortens_payload hparse
    have hmagic : magic <+: payload records := by
      rw [payload, List.append_assoc, List.append_assoc]
      exact List.prefix_append _ _
    refine ⟨(decodeWith_sealed hmagic).trans again, ?_⟩
    rw [encodeWith, length_sealed, length_sealed]
    exact Nat.add_le_add_right hlength _
  · intro bytes rest place place' h
    have hlength := (readUnsigned_ok h).2
    rw [List.length_append] at hlength
    exact Nat.le_of_add_le_add_right hlength
  · intro bytes rest place place' h
    have hlength := (readSigned_ok h).2
    rw [List.length_append] at hlength
    exact Nat.le_of_add_le_add_right hlength

/-- Under a hash that is always zero: an artifact of one record in which the number of records and
an offset are longer than they have to be. -/
theorem written_is_shortest_of_padded :
    let zeros : Digest := ⟨List.replicate 32 0, by decide⟩
    let hash : Hash := fun _ => zeros
    let records : List SealedRecord :=
      [.procedure ⟨3, by decide⟩ (.virtualFromOffset ⟨2, by decide⟩ (-3) true)]
    let padded := sealed hash (magic ++ word16 formatVersion ++ [129, 0] ++
      [21] ++ word16 2 ++ word16 3 ++ [253, 255, 127] ++ [1])
    decodeWith hash padded = .ok records ∧
      decodeWith hash (encodeWith hash records) = .ok records ∧
      (encodeWith hash records).length ≤ padded.length ∧
      readUnsigned ⟨[129, 0], 0⟩ = .ok 1 ⟨[], 2⟩ ∧ (unsigned 1).length ≤ 2 ∧
      readSigned ⟨[253, 255, 127], 0⟩ = .ok (-3) ⟨[], 3⟩ ∧ (signed (-3)).length ≤ 3 := by
  intro zeros hash records padded
  obtain ⟨shortest, unsigned, signed⟩ := written_is_shortest hash
  have accepted : decodeWith hash padded = .ok records := by decide +kernel
  have one : readUnsigned ⟨[129, 0], 0⟩ = .ok 1 ⟨[], 2⟩ := rfl
  have minusThree : readSigned ⟨[253, 255, 127], 0⟩ = .ok (-3) ⟨[], 3⟩ := rfl
  exact ⟨accepted, (shortest padded records accepted).1, (shortest padded records accepted).2, one,
    (unsigned 1 (by decide)).2 [129, 0] [] 0 2 one, minusThree,
    (signed (-3) (by decide) (by decide)).2 [253, 255, 127] [] 0 3 minusThree⟩

end Artifact

end Provenance
