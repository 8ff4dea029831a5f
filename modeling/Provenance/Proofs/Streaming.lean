import Mathlib
import Provenance.Proofs.Framing

/-!
Streaming: a reader decides by the bytes it takes and by nothing else. Where it accepts it
frames what it took, and on any shorter beginning of that it reports the end of the input.
The grammar of an artifact is made of readers that stream, so nothing it accepts is the
beginning of anything else it accepts, whichever bytes these were read from.
-/
namespace Provenance.Wire

variable {α β : Type}

/-- Every shorter beginning of the bytes ends too early for the reader, which says where. -/
def Starves (reader : Reader α) (bytes : List UInt8) : Prop :=
  ∀ cut more, bytes = cut ++ more → more ≠ [] → ∀ position,
    ∃ c, reader ⟨cut, position⟩ = .error (.truncated (position + cut.length)) c

/-- What a reader accepts it takes from the front, and would take it the same anywhere else.
A reader may be told where its value starts, which matters for its errors only. -/
def Streams (reader : Nat → Reader α) : Prop :=
  ∀ ⦃start c a c'⦄, reader start c = .ok a c' →
    ∃ taken, c.rest = taken ++ c'.rest ∧
      ∀ start', Frames (reader start') taken a ∧ Starves (reader start') taken

section Bind

variable {reader : Reader α} {next : α → Reader β} {c c' : Cursor}

theorem error_bind {e : DecodeError} (h : reader c = .error e c') :
    (reader >>= next) c = .error e c' := by
  show EStateM.bind reader next c = _
  rw [EStateM.bind, h]

theorem ok_bind {a : α} (h : reader c = .ok a c') : (reader >>= next) c = next a c' := by
  show EStateM.bind reader next c = _
  rw [EStateM.bind, h]

theorem of_bind_ok {b : β} (h : (reader >>= next) c = .ok b c') :
    ∃ a between, reader c = .ok a between ∧ next a between = .ok b c' := by
  cases hfirst : reader c with
  | ok a between => exact ⟨a, between, rfl, (ok_bind hfirst).symm.trans h⟩
  | error e between =>
    rw [error_bind hfirst] at h
    cases h

end Bind

theorem Starves.nil (reader : Reader α) : Starves reader [] :=
  fun _ _ hbytes hmore => absurd (List.append_eq_nil_iff.mp hbytes.symm).2 hmore

/-- A cut before the end of the first part starves the first reader; a later one leaves the
first reader its bytes. -/
theorem Starves.bind {reader : Reader α} {next : α → Reader β} {bytes bytes' : List UInt8}
    {a : α} (hframes : Frames reader bytes a) (hstarves : Starves reader bytes)
    (hnext : Starves (next a) bytes') : Starves (reader >>= next) (bytes ++ bytes') := by
  intro cut more hbytes hmore position
  have later : ∀ cut', cut = bytes ++ cut' → bytes' = cut' ++ more →
      ∃ c, (reader >>= next) ⟨cut, position⟩ =
        .error (.truncated (position + cut.length)) c := by
    rintro cut' rfl hbytes'
    rw [hframes.bind_eq, List.length_append, ← Nat.add_assoc]
    exact hnext cut' more hbytes' hmore _
  rcases List.append_eq_append_iff.mp hbytes with ⟨cut', hcut, hbytes'⟩ | ⟨missing, hcut, hmore'⟩
  · exact later cut' hcut hbytes'
  · by_cases hmissing : missing = []
    · subst hmissing
      exact later [] (by simpa using hcut.symm) (by simpa using hmore'.symm)
    · obtain ⟨c, hc⟩ := hstarves cut missing hcut hmissing position
      exact ⟨c, error_bind hc⟩

theorem Streams.pure (a : α) : Streams fun _ => pure a := by
  intro _ c a' c' h
  cases h
  exact ⟨[], rfl, fun _ => ⟨Frames.pure a, Starves.nil _⟩⟩

theorem Streams.throw (e : Nat → DecodeError) :
    Streams fun start => (throw (e start) : Reader α) := by
  intro _ _ _ _ h
  cases h

theorem Streams.bind {reader : Nat → Reader α} {next : Nat → α → Reader β}
    (h : Streams reader) (hnext : ∀ a, Streams fun start => next start a) :
    Streams fun start => reader start >>= next start := by
  intro start c b c' hrun
  obtain ⟨a, between, hfirst, hsecond⟩ := of_bind_ok hrun
  obtain ⟨taken, hrest, htaken⟩ := h hfirst
  obtain ⟨taken', hrest', htaken'⟩ := hnext a hsecond
  refine ⟨taken ++ taken', ?_, ?_⟩
  · rw [hrest, hrest', List.append_assoc]
  · intro start'
    obtain ⟨hframes, hstarves⟩ := htaken start'
    obtain ⟨hframes', hstarves'⟩ := htaken' start'
    exact ⟨hframes.bind hframes', hstarves.bind hframes hstarves'⟩

theorem Streams.position {next : Nat → Reader β} (h : Streams next) :
    Streams fun _ => position >>= next := by
  intro _ c b c' hrun
  obtain ⟨taken, hrest, htaken⟩ := h (show next c.position c = .ok b c' from hrun)
  refine ⟨taken, hrest, fun _ => ⟨Frames.position fun start => (htaken start).1, ?_⟩⟩
  intro cut more hbytes hmore place
  exact (htaken place).2 cut more hbytes hmore place

theorem take_of_readBytes {n : Nat} {c c' : Cursor} {taken : List UInt8}
    (h : readBytes n c = .ok taken c') : taken = c.rest.take n ∧ c'.rest = c.rest.drop n := by
  unfold readBytes at h
  simp only at h
  split at h
  · cases h
    exact ⟨rfl, rfl⟩
  · cases h

theorem streams_readBytes (n : Nat) : Streams fun _ => readBytes n := by
  intro _ c taken c' h
  have hlength := length_of_readBytes h
  obtain ⟨htaken, hleft⟩ := take_of_readBytes h
  refine ⟨taken, ?_, fun _ => ⟨?_, ?_⟩⟩
  · rw [htaken, hleft, List.take_append_drop]
  · subst hlength
    exact frames_readBytes taken
  · intro cut more hbytes hmore position
    have hshort : cut.length < n := by
      have := List.length_pos_iff.mpr hmore
      rw [← hlength, hbytes, List.length_append]
      omega
    have hnone : (cut.take n).length ≠ n := by
      rw [List.length_take]
      omega
    refine ⟨⟨cut, position⟩, ?_⟩
    simp only [readBytes, if_neg hnone]
    rfl

theorem streams_readByte : Streams fun _ => readByte := by
  rintro _ ⟨rest, position⟩ b c' h
  cases rest with
  | nil => cases h
  | cons b rest =>
    cases h
    refine ⟨[b], rfl, fun _ => ⟨frames_readByte b, ?_⟩⟩
    intro cut more hbytes hmore position
    cases cut with
    | nil => exact ⟨_, rfl⟩
    | cons _ cut =>
      have hnil := (List.cons.inj hbytes).2
      exact absurd (List.append_eq_nil_iff.mp hnil.symm).2 hmore

theorem streams_readWord16 : Streams fun _ => readWord16 :=
  (streams_readBytes 2).bind fun bytes => Streams.pure (ofLittleEndian bytes)

/-- The groups of a number that was read depend on its bytes only, and they are not all there
before the byte that ends them. -/
theorem groupsFrom_streams {tenth start width value place : Nat} {bytes : List UInt8} {g : Groups}
    {c : Cursor} (h : groupsFrom tenth start width value place bytes = .ok g c) :
    ∃ taken, bytes = taken ++ c.rest ∧
      (∀ start' place' rest, groupsFrom tenth start' width value place' (taken ++ rest) =
        .ok g ⟨rest, place' + taken.length⟩) ∧
      ∀ cut more, taken = cut ++ more → more ≠ [] → ∀ start' place',
        ∃ c', groupsFrom tenth start' width value place' cut =
          .error (.truncated (place' + cut.length)) c' := by
  induction bytes generalizing width value place with
  | nil => cases h
  | cons b bytes ih =>
    rw [groupsFrom] at h
    split at h
    · cases h
    rename_i hfits
    split at h
    · rename_i hlast
      cases h
      refine ⟨[b], rfl, ?_, ?_⟩
      · intro start' place' rest
        rw [List.singleton_append, groupsFrom, if_neg hfits, if_pos hlast]
        rfl
      · intro cut more hcut hmore start' place'
        cases cut with
        | nil => exact ⟨_, rfl⟩
        | cons _ cut =>
          have hnil := (List.cons.inj hcut).2
          exact absurd (List.append_eq_nil_iff.mp hnil.symm).2 hmore
    · rename_i hlast
      obtain ⟨taken, hrest, hframes, hstarves⟩ := ih h
      refine ⟨b :: taken, by rw [hrest, List.cons_append], ?_, ?_⟩
      · intro start' place' rest
        rw [List.cons_append, groupsFrom, if_neg hfits, if_neg hlast, hframes, List.length_cons]
        congr 2
        omega
      · intro cut more hcut hmore start' place'
        cases cut with
        | nil => exact ⟨_, rfl⟩
        | cons b' cut =>
          obtain ⟨rfl, htaken⟩ := List.cons.inj hcut
          obtain ⟨c', hc'⟩ := hstarves cut more htaken hmore start' (place' + 1)
          refine ⟨c', ?_⟩
          rw [groupsFrom, if_neg hfits, if_neg hlast, hc', List.length_cons]
          congr 2
          omega

theorem streams_readGroups (tenth : Nat) : Streams fun _ => readGroups tenth := by
  intro _ c g c' h
  obtain ⟨taken, hrest, hframes, hstarves⟩ := groupsFrom_streams h
  refine ⟨taken, hrest, fun _ => ⟨fun rest place => hframes place place rest, ?_⟩⟩
  intro cut more hcut hmore place
  exact hstarves cut more hcut hmore place place

theorem streams_readUnsigned : Streams fun _ => readUnsigned :=
  (streams_readGroups 2).bind fun g => Streams.pure g.value

theorem streams_readSigned : Streams fun _ => readSigned :=
  (streams_readGroups 128).bind fun g => Streams.pure (g.signed.bmod UInt64.size)

theorem streams_readSymbolId : Streams fun _ => readSymbolId := by
  apply Streams.position
  apply streams_readWord16.bind
  intro w
  cases SymbolId.ofRaw? w with
  | some id => exact Streams.pure id
  | none => exact Streams.throw DecodeError.zeroSymbolId

theorem streams_readIndex : Streams fun _ => readIndex := by
  apply Streams.position
  apply streams_readUnsigned.bind
  intro n
  by_cases hfits : n < UInt32.size
  · simpa only [if_pos hfits] using Streams.pure _
  · simpa only [if_neg hfits] using Streams.throw DecodeError.integerOverflow

theorem streams_readOffset : Streams fun _ => readOffset := by
  apply Streams.position
  apply streams_readSigned.bind
  intro v
  by_cases hfits : Int32.minValue.toInt ≤ v ∧ v ≤ Int32.maxValue.toInt
  · simpa only [if_pos hfits] using Streams.pure _
  · simpa only [if_neg hfits] using Streams.throw DecodeError.integerOverflow

theorem streams_readFlag : Streams fun _ => readFlag := by
  apply Streams.position
  apply streams_readByte.bind
  intro b
  by_cases hzero : b = 0
  · simpa only [if_pos hzero] using Streams.pure false
  · by_cases hone : b = 1
    · simpa only [if_neg hzero, if_pos hone] using Streams.pure true
    · simpa only [if_neg hzero, if_neg hone] using
        Streams.throw fun start => DecodeError.invalidBool start b

theorem streams_readText : Streams fun _ => readText := by
  apply Streams.position
  apply streams_readUnsigned.bind
  intro length
  apply (streams_readBytes length).bind
  intro bytes
  cases String.fromUTF8? ⟨bytes.toArray⟩ with
  | some s => exact Streams.pure s
  | none => exact Streams.throw DecodeError.invalidUtf8

theorem readDigest_error {c c' : Cursor} {e : DecodeError} (h : readBytes 32 c = .error e c') :
    readDigest c = .error e c' := by
  rw [readDigest]
  split
  · rename_i hread
    rw [hread] at h
    cases h
  · rename_i hread
    rw [hread] at h
    cases h
    rfl

theorem readDigest_ok {c c' : Cursor} {d : Digest} :
    readDigest c = .ok d c' ↔ readBytes 32 c = .ok d.bytes c' := by
  rw [readDigest]
  split
  · rename_i hread
    constructor <;> intro h
    · cases h; exact hread
    · rw [hread] at h
      cases h
      rfl
  · rename_i hread
    constructor <;> intro h
    · cases h
    · rw [hread] at h
      cases h

theorem streams_readDigest : Streams fun _ => readDigest := by
  intro start c d c' h
  obtain ⟨taken, hrest, htaken⟩ := @streams_readBytes 32 start _ _ _ (readDigest_ok.mp h)
  obtain ⟨hframes, hstarves⟩ := htaken start
  refine ⟨taken, hrest, fun _ => ⟨fun rest place => readDigest_ok.mpr (hframes rest place), ?_⟩⟩
  intro cut more hcut hmore place
  obtain ⟨c', hc'⟩ := hstarves cut more hcut hmore place
  exact ⟨c', readDigest_error hc'⟩

theorem streams_readField (shape : Shape) : Streams fun _ => readField shape := by
  cases shape with
  | type | procedure => exact streams_readSymbolId
  | text => exact streams_readText
  | digest => exact streams_readDigest
  | index => exact streams_readIndex
  | offset => exact streams_readOffset
  | flag => exact streams_readFlag

theorem streams_readFields (fs : List FieldSpec) : Streams fun _ => readFields fs := by
  induction fs with
  | nil => exact Streams.pure ()
  | cons f fs ih =>
    exact (streams_readField f.shape).bind fun v => ih.bind fun vs => Streams.pure (v, vs)

theorem streams_readRecord : Streams fun _ => readRecord := by
  apply Streams.position
  apply streams_readByte.bind
  intro tag
  cases Kind.ofTag? tag with
  | some k => exact (streams_readFields k.fields).bind fun vs => Streams.pure (Record.ofValues k vs)
  | none => exact Streams.throw fun start => DecodeError.unknownKind start tag

end Provenance.Wire
