import Mathlib
import Provenance.Artifact.Transfer
import Provenance.Proofs.ArtifactRoundTrip
import Provenance.Proofs.Streaming

/-!
A cut-off or extended artifact is refused, whatever the hash. The digest has no part in this,
since the last bytes of a cut artifact might happen to be the digest of those before them: a
payload says by itself where it ends.
-/
namespace Provenance

namespace Wire

variable {α β : Type}

/-- The reader accepts no input that begins with these bytes. -/
def Refuses (reader : Reader α) (bytes : List UInt8) : Prop :=
  ∀ rest position, ∃ e c, reader ⟨bytes ++ rest, position⟩ = .error e c

/-- The bytes written for a value are taken for it, or refused if the value is too long to be
written: in both cases whatever follows them and wherever they start. -/
def Settles (reader : Nat → Reader α) (bytes : List UInt8) (a : α) : Prop :=
  (∀ start, Frames (reader start) bytes a) ∨ ∀ start, Refuses (reader start) bytes

theorem Settles.of_frames {reader : Nat → Reader α} {bytes : List UInt8} {a : α}
    (h : ∀ start, Frames (reader start) bytes a) : Settles reader bytes a := .inl h

theorem Settles.pure (a : α) : Settles (fun _ => pure a) [] a :=
  .of_frames fun _ => Frames.pure a

theorem Settles.bind {reader : Nat → Reader α} {next : Nat → α → Reader β}
    {bytes bytes' : List UInt8} {a : α} {b : β} (h : Settles reader bytes a)
    (h' : Settles (fun start => next start a) bytes' b) :
    Settles (fun start => reader start >>= next start) (bytes ++ bytes') b := by
  rcases h with hframes | hrefuses
  · rcases h' with hframes' | hrefuses'
    · exact .inl fun start => (hframes start).bind (hframes' start)
    · refine .inr fun start rest position => ?_
      obtain ⟨e, c, hread⟩ := hrefuses' start rest (position + bytes.length)
      refine ⟨e, c, ?_⟩
      rw [List.append_assoc]
      exact ((hframes start).bind_eq _ _).trans hread
  · refine .inr fun start rest position => ?_
    obtain ⟨e, c, hread⟩ := hrefuses start (bytes' ++ rest) position
    rw [List.append_assoc]
    exact ⟨e, c, error_bind hread⟩

theorem Settles.ends {reader : Nat → Reader α} {next : Nat → α → Reader β}
    {bytes : List UInt8} {a : α} {b : β} (h : Settles reader bytes a)
    (h' : Settles (fun start => next start a) [] b) :
    Settles (fun start => reader start >>= next start) bytes b := by
  have hbind := h.bind h'
  rwa [List.append_nil] at hbind

theorem Settles.position {next : Nat → Reader β} {bytes : List UInt8} {b : β}
    (h : Settles next bytes b) : Settles (fun _ => position >>= next) bytes b := by
  rcases h with hframes | hrefuses
  · exact .inl fun _ => Frames.position hframes
  · exact .inr fun _ rest start => hrefuses start rest start

/-- Of two inputs that agree as far as both go, at most one is taken and the other settled,
unless they are the same. -/
theorem Settles.unique {reader : Nat → Reader α} {bytes bytes' rest rest' : List UInt8}
    {a a' : α} (h : Settles reader bytes a) (h' : Frames (reader 0) bytes' a')
    (heq : bytes ++ rest = bytes' ++ rest') : bytes = bytes' := by
  have hread := h' rest' 0
  rw [← heq] at hread
  rcases h with hframes | hrefuses
  · rw [hframes 0] at hread
    obtain ⟨-, hrest, -⟩ : a = a' ∧ rest = rest' ∧ _ := by simpa using hread
    rw [hrest] at heq
    exact List.append_cancel_right heq
  · obtain ⟨e, c, herror⟩ := hrefuses 0 rest 0
    rw [herror] at hread
    cases hread

/-- The groups of a number that has no room in the bits that are left: the tenth of them is
too high, or followed by another one. -/
theorem groupsFrom_unsigned_overflow {start width value place : Nat} {rest : List UInt8} (k n : Nat)
    (hwidth : width = 7 * k) (hn : 2 ^ (64 - 7 * k) ≤ n) :
    ∃ c, groupsFrom 2 start width value place (unsigned n ++ rest) =
      .error (.integerOverflow start) c := by
  induction n using unsigned.induct generalizing k width value place with
  | case1 n hsmall =>
    have hbyte : (UInt8.ofNat n).toNat % 128 = n := by
      rw [UInt8.toNat_ofNat']
      omega
    have hlate : 9 ≤ k := by
      by_contra hearly
      have hroom : 2 ^ 7 ≤ 2 ^ (64 - 7 * k) := Nat.pow_le_pow_right (by decide) (by omega)
      omega
    have hover : 63 < width ∨ (width = 63 ∧ 2 ≤ n) := by
      rcases Nat.eq_or_lt_of_le hlate with rfl | hpast
      · exact .inr ⟨hwidth, hn⟩
      · exact .inl (by omega)
    rw [unsigned, if_pos hsmall, List.singleton_append, groupsFrom, hbyte, if_pos hover]
    exact ⟨_, rfl⟩
  | case2 n hlarge ih =>
    have hbyte : (UInt8.ofNat (n % 128 + 128)).toNat = n % 128 + 128 := by
      rw [UInt8.toNat_ofNat']
      omega
    rw [unsigned, if_neg hlarge, List.cons_append, groupsFrom]
    split
    · exact ⟨_, rfl⟩
    · rw [if_neg (by omega)]
      refine ih (k + 1) (by omega) ?_
      by_cases hlast : k < 9
      · have hpow : 2 ^ (64 - 7 * k) = 2 ^ (64 - 7 * (k + 1)) * 128 := by
          rw [show 64 - 7 * k = 64 - 7 * (k + 1) + 7 by omega, Nat.pow_add]
        omega
      · have hzero : 64 - 7 * (k + 1) = 0 := by omega
        rw [hzero]
        omega

theorem settles_readUnsigned (n : Nat) : Settles (fun _ => readUnsigned) (unsigned n) n := by
  by_cases hn : n < 2 ^ 64
  · exact .inl fun _ => frames_readUnsigned hn
  · refine .inr fun _ rest position => ?_
    obtain ⟨c, hc⟩ : ∃ c, readGroups 2 ⟨unsigned n ++ rest, position⟩ =
        .error (.integerOverflow position) c :=
      groupsFrom_unsigned_overflow 0 n rfl (by omega)
    exact ⟨_, c, error_bind hc⟩

theorem settles_readText (s : String) : Settles (fun _ => readText) (text s) s := by
  apply Settles.position
  refine (settles_readUnsigned (utf8 s).length).bind ?_
  refine (Settles.of_frames fun _ => frames_readBytes (utf8 s)).ends ?_
  rw [fromUTF8?_utf8]
  exact Settles.pure s

theorem settles_readField (shape : Shape) (v : shape.Value SymbolId SymbolId) :
    Settles (fun _ => readField shape) (field shape v) v := by
  cases shape with
  | type | procedure => exact .of_frames fun _ => frames_readSymbolId v
  | text => exact settles_readText v
  | digest => exact .of_frames fun _ => frames_readDigest v
  | index => exact .of_frames fun _ => frames_readIndex v
  | offset => exact .of_frames fun _ => frames_readOffset v
  | flag => exact .of_frames fun _ => frames_readFlag v

theorem settles_readFields (fs : List FieldSpec) (vs : Values SymbolId SymbolId fs) :
    Settles (fun _ => readFields fs) (fields fs vs) vs := by
  induction fs with
  | nil => exact Settles.pure ()
  | cons f fs ih =>
    obtain ⟨v, vs⟩ := vs
    exact (settles_readField f.shape v).bind ((ih vs).ends (Settles.pure (v, vs)))

theorem settles_readRecord (r : SealedRecord) : Settles (fun _ => readRecord) (record r) r := by
  apply Settles.position
  refine (Settles.of_frames fun _ => frames_readByte r.kind.tag).bind ?_
  rw [Kind.ofTag?_tag]
  refine (settles_readFields _ r.values).ends ?_
  rw [Record.ofValues_values]
  exact Settles.pure r

end Wire

namespace Artifact

open Wire

/-- A payload up to the end of its last record. -/
def readBody : Reader (List SealedRecord) := do
  let _ ← readBytes magic.length
  let version ← readWord16
  if version ≠ formatVersion then throw (.unsupportedVersion version)
  let count ← readUnsigned
  readMany count

/-- Nothing may follow the last record. -/
def readEnd (records : List SealedRecord) : Reader (List SealedRecord) := fun c =>
  if c.rest = [] then .ok records c else .error (.trailingBytes c.position) c

theorem readPayload_eq : readPayload = readBody >>= readEnd := by
  have hend : readEnd = fun records => do
      if (← get).rest ≠ [] then throw (.trailingBytes (← position))
      return records := by
    funext records ⟨rest, position⟩
    cases rest <;> rfl
  simp only [readPayload, readBody, bind_assoc, hend]
  congr
  funext _
  congr
  funext version
  split
  · simp only [bind_assoc]
  · simp only [bind_assoc]

theorem streams_readMany (count : Nat) : Streams fun _ => readMany count := by
  induction count with
  | zero => exact Streams.pure []
  | succ count ih =>
    exact streams_readRecord.bind fun r => ih.bind fun records => Streams.pure (r :: records)

theorem streams_readBody : Streams fun _ => readBody := by
  apply (streams_readBytes magic.length).bind
  intro _
  apply streams_readWord16.bind
  intro version
  have hcounted : Streams fun _ => readUnsigned >>= readMany :=
    streams_readUnsigned.bind streams_readMany
  split
  · exact (Streams.throw fun _ => DecodeError.unsupportedVersion version).bind fun _ => hcounted
  · exact hcounted

theorem settles_readMany (records : List SealedRecord) :
    Settles (fun _ => readMany records.length) (records.flatMap record) records := by
  induction records with
  | nil => exact Settles.pure []
  | cons r records ih =>
    rw [List.flatMap_cons]
    exact (settles_readRecord r).bind (ih.ends (Settles.pure (r :: records)))

theorem settles_readBody (records : List SealedRecord) :
    Settles (fun _ => readBody) (payload records) records := by
  rw [payload, List.append_assoc, List.append_assoc]
  refine (Settles.of_frames fun _ => frames_readBytes magic).bind ?_
  refine (Settles.of_frames fun _ => frames_readWord16 formatVersion).bind ?_
  exact (settles_readUnsigned records.length).bind (settles_readMany records)

variable {hash : Hash} {body bytes : List UInt8} {records : List SealedRecord}

/-- What comes of a payload once its body is read. -/
theorem parsePayload_of_body {c : Cursor} (h : readBody (Cursor.start body) = .ok records c) :
    parsePayload body =
      if c.rest = [] then .ok records else .error (.trailingBytes c.position) := by
  rw [parsePayload, readPayload_eq, ok_bind h, readEnd]
  by_cases hrest : c.rest = []
  · simp only [if_pos hrest]
  · simp only [if_neg hrest]

theorem parsePayload_of_error {e : DecodeError} {c : Cursor}
    (h : readBody (Cursor.start body) = .error e c) : parsePayload body = .error e := by
  rw [parsePayload, readPayload_eq, error_bind h]

/-- An accepted payload is taken to its end, and nothing shorter is. -/
theorem accepted_body (h : parsePayload body = .ok records) :
    Frames readBody body records ∧ Starves readBody body := by
  cases hbody : readBody (Cursor.start body) with
  | error e c =>
    rw [parsePayload_of_error hbody] at h
    cases h
  | ok records' c =>
    rw [parsePayload_of_body hbody] at h
    by_cases hrest : c.rest = []
    · rw [if_pos hrest] at h
      cases h
      obtain ⟨taken, htaken, hall⟩ := @streams_readBody 0 _ _ _ hbody
      rw [hrest, List.append_nil] at htaken
      subst htaken
      exact hall 0
    · rw [if_neg hrest] at h
      cases h

/-- A beginning of an accepted payload is truncated where it was cut. -/
theorem parsePayload_cut {cut more : List UInt8}
    (h : parsePayload (cut ++ more) = .ok records) (hmore : more ≠ []) :
    parsePayload cut = .error (.truncated cut.length) := by
  obtain ⟨c, hc⟩ := (accepted_body h).2 cut more rfl hmore 0
  rw [Nat.zero_add] at hc
  exact parsePayload_of_error hc

/-- What follows an accepted payload is refused where that ended. -/
theorem parsePayload_extended {more : List UInt8} (h : parsePayload body = .ok records)
    (hmore : more ≠ []) :
    parsePayload (body ++ more) = .error (.trailingBytes body.length) := by
  have hbody := (accepted_body h).1 more 0
  rw [parsePayload_of_body hbody, if_neg hmore, Nat.zero_add]

theorem length_sealed (hash : Hash) (body : List UInt8) :
    (sealed hash body).length = body.length + digestLength := by
  rw [sealed, List.length_append, (hash body).length_bytes, digestLength]

theorem magic_le_of_accepted (h : parsePayload body = .ok records) :
    magic.length ≤ body.length := by
  have hbody := (accepted_body h).1 [] 0
  rw [readBody, List.append_nil] at hbody
  obtain ⟨front, c, hfront, -⟩ := of_bind_ok hbody
  have hlength := length_of_readBytes hfront
  rw [(take_of_readBytes hfront).1] at hlength
  have hle := List.length_take_le' magic.length body
  exact hlength.symm.trans_le hle

/-- Past its magic and its digest, an artifact is what its payload is. -/
theorem decodeWith_sealed (hmagic : magic <+: body) :
    decodeWith hash (sealed hash body) = parsePayload body := by
  have hlength := length_sealed hash body
  have hfront : (sealed hash body).take magic.length = magic :=
    (List.prefix_iff_eq_take.mp (hmagic.trans (List.prefix_append _ _))).symm
  have hbody : (sealed hash body).take body.length = body := List.take_left
  have htrailer : (sealed hash body).drop body.length = (hash body).bytes :=
    List.drop_left
  have hlong := hmagic.length_le
  rw [decodeWith]
  simp only
  rw [if_neg (by omega), if_neg (not_not.mpr hfront), if_neg (by omega), hlength,
    Nat.add_sub_cancel, hbody, htrailer, if_neg (not_not.mpr rfl)]

theorem sealed_of_decodeWith (h : decodeWith hash bytes = .ok records) :
    ∃ body, bytes = sealed hash body ∧ magic <+: body ∧
      parsePayload body = .ok records := by
  rw [decodeWith] at h
  simp only at h
  split at h
  · cases h
  split at h
  · cases h
  split at h
  · cases h
  split at h
  · cases h
  rename_i hfront hlong hdigest
  have hsealed : bytes = sealed hash (bytes.take (bytes.length - digestLength)) := by
    rw [sealed, not_not.mp hdigest, List.take_append_drop]
  have hmagic : magic <+: bytes := by
    rw [List.prefix_iff_eq_take]
    exact (not_not.mp hfront).symm
  exact ⟨_, hsealed, List.prefix_of_prefix_length_le hmagic (List.take_prefix _ _)
    (magic_le_of_accepted h), h⟩

theorem sealed_inj {body' : List UInt8} :
    sealed hash body = sealed hash body' ↔ body = body' := by
  refine ⟨fun h => ?_, fun h => by rw [h]⟩
  have hlength := congrArg List.length h
  rw [length_sealed, length_sealed] at hlength
  exact List.append_inj_left h (by omega)

/-- Of the inputs that agree with a written artifact as far as both go, only the artifact
itself can be accepted. -/
theorem eq_encodeWith_of_decodeWith {rest rest' : List UInt8} {accepted : List SealedRecord}
    (h : decodeWith hash bytes = .ok accepted)
    (heq : encodeWith hash records ++ rest = bytes ++ rest') :
    bytes = encodeWith hash records := by
  obtain ⟨body, rfl, -, hparse⟩ := sealed_of_decodeWith h
  have hbody := (accepted_body hparse).1
  rw [encodeWith, sealed, sealed, List.append_assoc, List.append_assoc] at heq
  have hsame := (settles_readBody records).unique hbody heq
  rw [encodeWith, hsame]

/-- A sink has a beginning of what it was offered. -/
theorem Sink.taken_isPrefix (sink : Sink) (taken : Nat) (bytes : List UInt8) :
    (sink.writeAll taken bytes).2 <+: bytes := by
  induction taken, bytes using Sink.writeAll.induct sink with
  | case1 taken =>
    rw [writeAll, if_pos rfl]
  | case2 taken bytes hbytes detail haccept =>
    rw [writeAll, if_neg hbytes, haccept]
    exact List.nil_prefix
  | case3 taken bytes hbytes haccept =>
    rw [writeAll, if_neg hbytes, haccept]
    exact List.nil_prefix
  | case4 taken bytes hbytes n haccept _ _ _ ih =>
    rw [writeAll, if_neg hbytes, haccept]
    have hmore := (List.prefix_append_right_inj (bytes.take (n + 1))).mpr ih
    rwa [List.take_append_drop] at hmore

/-- A source gives a beginning of its bytes. -/
theorem Source.given_isPrefix (source : Source) (given : Nat) (left : List UInt8) {out : List UInt8}
    (h : source.readAll given left = .ok out) : out <+: left := by
  induction given, left using Source.readAll.induct source generalizing out with
  | case1 given left detail hgive =>
    rw [readAll, hgive] at h
    cases h
  | case2 given left hgive =>
    rw [readAll, hgive] at h
    cases h
    exact List.nil_prefix
  | case3 given n hgive =>
    rw [readAll, hgive] at h
    cases h
    exact List.nil_prefix
  | case4 given left n hgive hleft ih =>
    rw [readAll, hgive] at h
    simp only [if_neg hleft] at h
    cases hrest : source.readAll (given + (n + 1)) (left.drop (n + 1)) with
    | error detail =>
      rw [hrest] at h
      cases h
    | ok rest =>
      rw [hrest] at h
      cases h
      have hmore := (List.prefix_append_right_inj (left.take (n + 1))).mpr (ih hrest)
      rwa [List.take_append_drop] at hmore

theorem Sink.writeRecordsWith_isPrefix (hash : Hash) (sink : Sink) (records : List SealedRecord) :
    (sink.writeRecordsWith hash records).2 <+: encodeWith hash records := by
  have htaken := sink.taken_isPrefix 0 (encodeWith hash records)
  rw [writeRecordsWith]
  split
  · rename_i hwrite
    rwa [hwrite] at htaken
  · rename_i hwrite
    rw [hwrite] at htaken
    split
    · exact htaken
    · exact htaken

/-- What is read from a beginning of an artifact that is not all of it is no list. -/
theorem Source.readRecordsWith_cut {source : Source}
    (hfront : source.bytes <+: encodeWith hash records)
    (hne : source.bytes ≠ encodeWith hash records) :
    ∃ e, source.readRecordsWith hash = .error e := by
  rw [readRecordsWith]
  split
  · exact ⟨_, rfl⟩
  rename_i out hread
  split
  · exact ⟨_, rfl⟩
  rename_i accepted hdecode
  have hout := source.given_isPrefix 0 source.bytes hread
  obtain ⟨rest, hrest⟩ := hout.trans hfront
  rw [← List.append_nil (encodeWith hash records)] at hrest
  have heq := eq_encodeWith_of_decodeWith hdecode hrest.symm
  subst heq
  exact absurd (hfront.eq_of_length_le hout.length_le) hne

/-- Nothing but the whole artifact is read back from it, whatever the hash. A beginning of it
and an extension of it are refused. So are a beginning and an extension of any payload under a
digest of their own, and the error says where the one was cut and where the other should have
ended. What an interrupted write has left in a sink is a beginning. -/
theorem refused_unless_whole (hash : Hash) (records : List SealedRecord) :
    (∀ cut, cut <+: encodeWith hash records → cut ≠ encodeWith hash records →
      ∃ e, decodeWith hash cut = .error e) ∧
    (∀ more, more ≠ [] → ∃ e, decodeWith hash (encodeWith hash records ++ more) = .error e) ∧
    (∀ body accepted, decodeWith hash (sealed hash body) = .ok accepted →
      (∀ cut, cut <+: body → cut ≠ body → magic.length ≤ cut.length →
        decodeWith hash (sealed hash cut) = .error (.truncated cut.length)) ∧
      ∀ more, more ≠ [] →
        decodeWith hash (sealed hash (body ++ more)) =
          .error (.trailingBytes body.length)) ∧
    ∀ (sink : Sink) (e : TransferError) (taken : List UInt8),
      sink.writeRecordsWith hash records = (.error e, taken) →
      taken ≠ encodeWith hash records →
      ∀ source : Source, source.bytes = taken → ∃ e', source.readRecordsWith hash = .error e' := by
  refine ⟨?_, ?_, ?_, ?_⟩
  · intro cut hcut hne
    obtain ⟨more, hmore⟩ := hcut
    cases hdecode : decodeWith hash cut with
    | error e => exact ⟨e, rfl⟩
    | ok accepted =>
      rw [← List.append_nil (encodeWith hash records)] at hmore
      exact absurd (eq_encodeWith_of_decodeWith hdecode hmore.symm) hne
  · intro more hmore
    cases hdecode : decodeWith hash (encodeWith hash records ++ more) with
    | error e => exact ⟨e, rfl⟩
    | ok accepted =>
      have heq := eq_encodeWith_of_decodeWith hdecode (List.append_nil _).symm
      exact absurd (List.append_right_eq_self.mp heq) hmore
  · intro body accepted haccepted
    obtain ⟨body', hsealed, hmagic, hparse⟩ := sealed_of_decodeWith haccepted
    rw [← sealed_inj.mp hsealed] at hmagic hparse
    refine ⟨?_, ?_⟩
    · rintro cut ⟨more, rfl⟩ hne hlong
      have hcut := List.prefix_of_prefix_length_le hmagic (List.prefix_append cut more) hlong
      rw [decodeWith_sealed hcut]
      refine parsePayload_cut hparse ?_
      rintro rfl
      exact hne (List.append_nil cut).symm
    · intro more hmore
      rw [decodeWith_sealed (hmagic.trans (List.prefix_append body more))]
      exact parsePayload_extended hparse hmore
  · rintro sink e taken hwrite hne source rfl
    have hfront := sink.writeRecordsWith_isPrefix hash records
    rw [hwrite] at hfront
    exact source.readRecordsWith_cut hfront hne

/-- The worst of all hashes and a list that ends with the digest it gives: both what is left
without the digest and the artifact with a second one have the right digest at their end. -/
theorem refused_unless_whole_under_constant_hash :
    let zeros : Digest := ⟨List.replicate 32 0, by decide⟩
    let hash : Hash := fun _ => zeros
    let records : List SealedRecord := [.check (.chain ⟨3, by decide⟩ zeros)]
    let sink : Sink := ⟨fun taken => if taken < 12 then .ok 5 else .error "disk full", .ok ()⟩
    let source : Source := ⟨(sink.writeRecordsWith hash records).2, fun _ => .ok 4⟩
    (∃ e, decodeWith hash (payload records) = .error e) ∧
    (∃ e, decodeWith hash (encodeWith hash records ++ zeros.bytes) = .error e) ∧
    decodeWith hash (sealed hash ((payload records).take 9)) = .error (.truncated 9) ∧
    decodeWith hash (sealed hash (payload records ++ [1])) = .error (.trailingBytes 42) ∧
    ∃ e, source.readRecordsWith hash = .error e := by
  intro zeros hash records sink source
  obtain ⟨hcut, hmore, hbody, hwrite⟩ := refused_unless_whole hash records
  have haccepted : decodeWith hash (sealed hash (payload records)) = .ok records := by
    decide +kernel
  obtain ⟨hcut', hmore'⟩ := hbody (payload records) records haccepted
  have hfails : sink.writeRecordsWith hash records =
      (.error (.io "disk full"), source.bytes) := by decide +kernel
  have hlength : (payload records).length = 42 := by decide +kernel
  refine ⟨?_, hmore zeros.bytes (by decide), ?_, ?_, ?_⟩
  · exact hcut (payload records) (List.prefix_append _ _) (by decide +kernel)
  · have hnine : ((payload records).take 9).length = 9 := by decide +kernel
    have hlong : magic.length ≤ ((payload records).take 9).length := by decide +kernel
    rw [hcut' ((payload records).take 9) (List.take_prefix _ _) (by decide +kernel) hlong, hnine]
  · rw [hmore' [1] (by decide), hlength]
  · exact hwrite sink _ _ hfails (by decide +kernel) source rfl

end Artifact

end Provenance
