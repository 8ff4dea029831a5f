import Mathlib.Data.List.Basic
import Provenance.Utf8
import Provenance.Proofs.Inheriting

/-!
What the digest of a type tells about it. The digest is taken of texts put one after the other, each
closed by a mark, so as long as no name has a mark in it the texts can be read back: the names on
the chain of the type, those of the interfaces at each level of it, and the procedures that the type
declares. A procedure is one text, though, its name and its signature with nothing between them, so
that the two may be told apart wrongly.
-/
namespace Provenance

/-- A text in UTF-8 that has no mark in it. -/
def Unmarked (s : String) : Prop := 0 ∉ utf8 s ∧ 1 ∉ utf8 s ∧ 2 ∉ utf8 s

instance : DecidablePred Unmarked := fun _ => inferInstanceAs (Decidable (_ ∧ _ ∧ _))

theorem utf8_append (s s' : String) : utf8 (s ++ s') = utf8 s ++ utf8 s' := by
  rw [utf8, String.toByteArray_append, ByteArray.toList_data_append]
  rfl

theorem utf8_inj {s s' : String} (h : utf8 s = utf8 s') : s = s' :=
  String.toByteArray_inj.mp (ByteArray.ext (Array.toList_inj.mp h))

theorem Unmarked.append {s s' : String} (h : Unmarked s) (h' : Unmarked s') :
    Unmarked (s ++ s') := by
  simp only [Unmarked, utf8_append, List.mem_append, not_or] at *
  exact ⟨⟨h.1, h'.1⟩, ⟨h.2.1, h'.2.1⟩, h.2.2, h'.2.2⟩

theorem Unmarked.not_mark {s : String} (h : Unmarked s) :
    ∀ b ∈ utf8 s, ¬ ∃ m : World.Mark, m.byte = b := by
  rintro b hb ⟨m, rfl⟩
  cases m with
  | type => exact h.1 hb
  | interface => exact h.2.1 hb
  | procedure => exact h.2.2 hb

/-- Where two lists go on alike up to and past an item of some kind, none of which comes before,
they are the same up to there and from there on. -/
theorem append_cons_inj {α : Type} {p : α → Prop} {xs ys rest rest' : List α} {a b : α}
    (hxs : ∀ x ∈ xs, ¬ p x) (hys : ∀ y ∈ ys, ¬ p y) (ha : p a) (hb : p b)
    (h : xs ++ a :: rest = ys ++ b :: rest') : xs = ys ∧ a = b ∧ rest = rest' := by
  induction xs generalizing ys with
  | nil =>
    cases ys with
    | nil => exact ⟨rfl, List.cons.inj h⟩
    | cons y ys =>
      cases (List.cons.inj h).1
      exact absurd ha (hys a List.mem_cons_self)
  | cons x xs ih =>
    cases ys with
    | nil =>
      cases (List.cons.inj h).1
      exact absurd hb (hxs b List.mem_cons_self)
    | cons y ys =>
      obtain ⟨rfl, htail⟩ := List.cons.inj h
      obtain ⟨rfl, same⟩ := ih (fun z hz => hxs z (List.mem_cons_of_mem x hz))
        (fun z hz => hys z (List.mem_cons_of_mem x hz)) htail
      exact ⟨rfl, same⟩

namespace World

variable {w w' : World} {t t' : TypeRef}

theorem Mark.byte_inj {m m' : Mark} (h : m.byte = m'.byte) : m = m' := by
  cases m <;> cases m' <;> first | rfl | exact absurd h (by decide)

/-- The bytes of texts one after the other, each closed by its mark. -/
theorem toList_marked (texts : List (String × Mark)) :
    (marked texts).data.toList = texts.flatMap fun x => utf8 x.1 ++ [x.2.byte] := by
  have step (bytes : ByteArray) : (texts.foldl (fun bytes x =>
        (bytes ++ x.1.toByteArray).push x.2.byte) bytes).data.toList =
      bytes.data.toList ++ texts.flatMap fun x => utf8 x.1 ++ [x.2.byte] := by
    induction texts generalizing bytes with
    | nil => simp
    | cons x texts ih =>
      rw [List.foldl_cons, ih, List.flatMap_cons, ← List.append_assoc]
      simp [utf8]
  exact step .empty

/-- Texts without marks can be read back. -/
theorem marked_inj {texts texts' : List (String × Mark)} (unmarked : ∀ x ∈ texts, Unmarked x.1)
    (unmarked' : ∀ x ∈ texts', Unmarked x.1) (h : marked texts = marked texts') :
    texts = texts' := by
  have bytes := congrArg (fun bytes : ByteArray => bytes.data.toList) h
  simp only [toList_marked] at bytes
  clear h
  induction texts generalizing texts' with
  | nil =>
    cases texts' with
    | nil => rfl
    | cons x' texts' => simp at bytes
  | cons x texts ih =>
    cases texts' with
    | nil => simp at bytes
    | cons x' texts' =>
      simp only [List.flatMap_cons, List.append_assoc, List.singleton_append] at bytes
      obtain ⟨text, mark, rest⟩ := append_cons_inj (p := fun b => ∃ m : Mark, m.byte = b)
        (unmarked x List.mem_cons_self).not_mark (unmarked' x' List.mem_cons_self).not_mark
        ⟨_, rfl⟩ ⟨_, rfl⟩ bytes
      rw [ih (fun y hy => unmarked y (List.mem_cons_of_mem x hy))
        (fun y hy => unmarked' y (List.mem_cons_of_mem x' hy)) rest,
        Prod.ext (utf8_inj text) (Mark.byte_inj mark)]

/-- The name of a type and those of its interfaces. -/
def levelNames (w : World) (t : TypeRef) : String × List String :=
  ((w.typeDecl t).name, (w.interfaces t).map fun i => (w.typeDecl i).name)

/-- The names on the chain of a type, level by level. -/
def chainNames (w : World) (t : TypeRef) : List (String × List String) :=
  (w.superChain t).map w.levelNames

/-- The procedures that a type declares, each by its name and its signature. -/
def declaredKeys (w : World) (t : TypeRef) : List (String × String) :=
  (w.typeDecl t).procedures.map w.key

/-- The procedures that a type declares, each by its name and its signature in one text. -/
def declaredTexts (w : World) (t : TypeRef) : List String :=
  (w.declaredKeys t).map fun k => k.1 ++ k.2

/-- The texts of one level. -/
def spelled (level : String × List String) : List (String × Mark) :=
  (level.1, .type) :: level.2.map fun name => (name, .interface)

theorem shape_eq (w : World) (t : TypeRef) : w.shape t =
    (w.chainNames t).flatMap spelled ++ (w.declaredTexts t).map fun text => (text, .procedure) := by
  have hlevel : w.level = fun s => spelled (w.levelNames s) := by
    funext s
    simp [level, spelled, levelNames]
  have hprocedure :
      w.procedureText = fun p => ((w.key p).1 ++ (w.key p).2, Mark.procedure) := rfl
  simp only [shape, chainNames, declaredTexts, declaredKeys, List.flatMap_map, List.map_map, hlevel,
    Function.comp_def, hprocedure]

/-- The names of interfaces end where a text has another mark. -/
theorem map_interface_inj {names names' : List String} {rest rest' : List (String × Mark)}
    (hrest : ∀ x ∈ rest.head?, x.2 ≠ .interface) (hrest' : ∀ x ∈ rest'.head?, x.2 ≠ .interface)
    (h : names.map (fun name => (name, Mark.interface)) ++ rest =
      names'.map (fun name => (name, Mark.interface)) ++ rest') :
    names = names' ∧ rest = rest' := by
  induction names generalizing names' with
  | nil =>
    cases names' with
    | nil => exact ⟨rfl, h⟩
    | cons name' names' =>
      rw [List.map_nil, List.nil_append] at h
      exact absurd rfl (hrest (name', .interface) (by simp [h]))
  | cons name names ih =>
    cases names' with
    | nil =>
      rw [List.map_nil, List.nil_append] at h
      exact absurd rfl (hrest' (name, .interface) (by simp [← h]))
    | cons name' names' =>
      obtain ⟨same, htail⟩ := List.cons.inj h
      obtain ⟨rfl, rfl⟩ := ih htail
      cases same
      exact ⟨rfl, rfl⟩

/-- Levels and procedures can be told apart by their marks. -/
theorem spelled_inj {levels levels' : List (String × List String)} {texts texts' : List String}
    (h : levels.flatMap spelled ++ texts.map (fun text => (text, Mark.procedure)) =
      levels'.flatMap spelled ++ texts'.map fun text => (text, Mark.procedure)) :
    levels = levels' ∧ texts = texts' := by
  have other (levels : List (String × List String)) (texts : List String) :
      ∀ x ∈ (levels.flatMap spelled ++ texts.map fun text => (text, Mark.procedure)).head?,
        x.2 ≠ .interface := by
    intro x hx
    cases levels with
    | nil =>
      cases texts with
      | nil => cases hx
      | cons text texts =>
        cases hx
        exact nofun
    | cons level levels =>
      cases hx
      exact nofun
  induction levels generalizing levels' with
  | nil =>
    cases levels' with
    | nil =>
      have inj : Function.Injective fun text : String => (text, Mark.procedure) :=
        fun _ _ same => (Prod.mk.inj same).1
      exact ⟨rfl, inj.list_map h⟩
    | cons level' levels' => cases texts <;> simp [spelled] at h
  | cons level levels ih =>
    cases levels' with
    | nil => cases texts' <;> simp [spelled] at h
    | cons level' levels' =>
      simp only [List.flatMap_cons, spelled, List.cons_append, List.append_assoc] at h
      obtain ⟨name, htail⟩ := List.cons.inj h
      obtain ⟨interfaces, hrest⟩ := map_interface_inj (other _ _) (other _ _) htail
      obtain ⟨rfl, rfl⟩ := ih hrest
      rw [Prod.ext (Prod.mk.inj name).1 interfaces]
      exact ⟨rfl, rfl⟩

theorem shape_eq_iff : w.shape t = w'.shape t' ↔
    w.chainNames t = w'.chainNames t' ∧ w.declaredTexts t = w'.declaredTexts t' := by
  rw [shape_eq, shape_eq]
  refine ⟨spelled_inj, ?_⟩
  rintro ⟨names, texts⟩
  rw [names, texts]

/-- Two different byte strings with one digest. -/
def Collide (bytes bytes' : ByteArray) : Prop :=
  bytes ≠ bytes' ∧ Sha256.digest bytes = Sha256.digest bytes'

/-- Whatever has a name or a signature has one without marks. -/
structure Legible (w : World) : Prop where
  types : ∀ t ∈ w.typeRefs, Unmarked (w.typeDecl t).name
  procedures : ∀ p ∈ w.procRefs, Unmarked (w.procDecl p).name ∧ Unmarked (w.procDecl p).signature

theorem Legible.typeName (h : w.Legible) (t : TypeRef) : Unmarked (w.typeDecl t).name := by
  by_cases ht : w.Has (.type t)
  · exact h.types t (mem_typeRefs.mpr ht)
  · rw [typeDecl_of_not_has ht]
    decide

theorem Legible.procedure (h : w.Legible) (p : ProcRef) :
    Unmarked (w.procDecl p).name ∧ Unmarked (w.procDecl p).signature := by
  by_cases hp : p.index < w.procedures.size
  · exact h.procedures p (List.mem_map.mpr ⟨p.index, List.mem_range.mpr hp, rfl⟩)
  · rw [procDecl, Array.getD_eq_getD_getElem?, Array.getElem?_eq_none (Nat.le_of_not_lt hp)]
    decide

theorem Legible.shape (h : w.Legible) : ∀ x ∈ w.shape t, Unmarked x.1 := by
  intro x hx
  rcases List.mem_append.mp hx with hlevel | hprocedure
  · obtain ⟨s, -, hx⟩ := List.mem_flatMap.mp hlevel
    rcases List.mem_cons.mp hx with rfl | hinterface
    · exact h.typeName s
    · obtain ⟨i, -, rfl⟩ := List.mem_map.mp hinterface
      exact h.typeName i
  · obtain ⟨p, -, rfl⟩ := List.mem_map.mp hprocedure
    exact (h.procedure p).1.append (h.procedure p).2

/-- Unless their shapes collide, digests are the same exactly for the same shape. -/
theorem Legible.chainDigest_eq_iff (h : w.Legible) (h' : w'.Legible)
    (apart : ¬ Collide (marked (w.shape t)) (marked (w'.shape t'))) :
    w.chainDigest t = w'.chainDigest t' ↔ w.shape t = w'.shape t' := by
  constructor
  · intro digest
    by_contra other
    exact apart ⟨fun same => other (marked_inj h.shape h'.shape same), digest⟩
  · intro same
    rw [chainDigest, chainDigest, same]

/-- The character opens the signature and does not occur in the name. -/
structure OpensSignature (c : Char) (key : String × String) : Prop where
  name : c ∉ key.1.toList
  signature : key.2.toList.head? = some c

theorem OpensSignature.key_eq {c : Char} {key key' : String × String} (h : OpensSignature c key)
    (h' : OpensSignature c key') (text : key.1 ++ key.2 = key'.1 ++ key'.2) : key = key' := by
  obtain ⟨rest, hrest⟩ := List.head?_eq_some_iff.mp h.signature
  obtain ⟨rest', hrest'⟩ := List.head?_eq_some_iff.mp h'.signature
  have chars := congrArg String.toList text
  rw [String.toList_append, String.toList_append, hrest, hrest'] at chars
  obtain ⟨name, -, signature⟩ := append_cons_inj (p := (· = c))
    (fun x hx same => h.name (same ▸ hx)) (fun x hx same => h'.name (same ▸ hx)) rfl rfl chars
  refine Prod.ext (String.toList_inj.mp name) (String.toList_inj.mp ?_)
  rw [hrest, hrest', signature]

theorem keys_eq_of_texts {c : Char} {keys keys' : List (String × String)}
    (opens : ∀ key ∈ keys, OpensSignature c key) (opens' : ∀ key ∈ keys', OpensSignature c key)
    (texts : keys.map (fun key => key.1 ++ key.2) = keys'.map fun key => key.1 ++ key.2) :
    keys = keys' := by
  induction keys generalizing keys' with
  | nil =>
    cases keys' with
    | nil => rfl
    | cons key' keys' => cases texts
  | cons key keys ih =>
    cases keys' with
    | nil => cases texts
    | cons key' keys' =>
      obtain ⟨first, rest⟩ := List.cons.inj texts
      rw [List.forall_mem_cons] at opens opens'
      rw [opens.1.key_eq opens'.1 first, ih opens.2 opens'.2 rest]

/-- Two types of one digest, if their shapes do not collide, have the same names on their chains,
the same names of interfaces at each level, and procedures that make the same texts, and types of
which all this is the same have one digest. If moreover some character opens every signature and is
in no name, as a parenthesis may be, then the procedures have the same names and signatures. -/
theorem digest_tells_shape (legible : w.Legible) (legible' : w'.Legible)
    (apart : ¬ Collide (marked (w.shape t)) (marked (w'.shape t'))) :
    (w.chainDigest t = w'.chainDigest t' ↔
      w.chainNames t = w'.chainNames t' ∧ w.declaredTexts t = w'.declaredTexts t') ∧
    (w.chainDigest t = w'.chainDigest t' → ∀ c,
      (∀ key ∈ w.declaredKeys t, OpensSignature c key) →
      (∀ key ∈ w'.declaredKeys t', OpensSignature c key) →
      w.declaredKeys t = w'.declaredKeys t') := by
  have told := (legible.chainDigest_eq_iff legible' apart).trans shape_eq_iff
  exact ⟨told, fun digest _ opens opens' => keys_eq_of_texts opens opens' (told.mp digest).2⟩

/-- A class that extends another, implements an interface and declares two procedures. -/
def drawing : World :=
  let w := fresh.withType "Shape" true none []
  let w := w.withType "Base" false none []
  let w := w.withType "Circle" false (some ⟨3⟩) [⟨2⟩]
  let w := w.withProcedure ⟨4⟩ "name" false false
  w.withProcedure ⟨4⟩ "area" false false

/-- The same class on other handles, with a procedure above it and of other sorts of its own. -/
def redrawing : World :=
  let w := fresh.withType "Base" false none []
  let w := w.withProcedure ⟨2⟩ "size" false false
  let w := w.withType "Shape" true none []
  let w := w.withType "Rock" false none []
  let w := w.withType "Circle" false (some ⟨2⟩) [⟨3⟩]
  let w := w.withProcedure ⟨5⟩ "name" true false
  w.withProcedure ⟨5⟩ "area" false true

/-- The class has one digest in both worlds, which tells that the names are the same and, as no name
has a parenthesis in it, that the procedures are. -/
theorem digest_tells_shape_of_redrawing :
    drawing.Legible ∧ redrawing.Legible ∧
      ¬ Collide (marked (drawing.shape ⟨4⟩)) (marked (redrawing.shape ⟨5⟩)) ∧
      drawing.chainDigest ⟨4⟩ = redrawing.chainDigest ⟨5⟩ ∧
      drawing.chainNames ⟨4⟩ = redrawing.chainNames ⟨5⟩ ∧
      (∀ key ∈ drawing.declaredKeys ⟨4⟩, OpensSignature '(' key) ∧
      (∀ key ∈ redrawing.declaredKeys ⟨5⟩, OpensSignature '(' key) ∧
      drawing.declaredKeys ⟨4⟩ = redrawing.declaredKeys ⟨5⟩ := by
  have chain : drawing.superChain ⟨4⟩ = [⟨4⟩, ⟨3⟩, ⟨0⟩] := by
    rw [superChain_of_some (s := ⟨3⟩) rfl, superChain_of_some (s := ⟨0⟩) rfl,
      superChain_of_none rfl]
  have chain' : redrawing.superChain ⟨5⟩ = [⟨5⟩, ⟨2⟩, ⟨0⟩] := by
    rw [superChain_of_some (s := ⟨2⟩) rfl, superChain_of_some (s := ⟨0⟩) rfl,
      superChain_of_none rfl]
  have same : drawing.shape ⟨4⟩ = redrawing.shape ⟨5⟩ := by
    rw [shape, shape, chain, chain']
    rfl
  have digest : drawing.chainDigest ⟨4⟩ = redrawing.chainDigest ⟨5⟩ := by
    rw [chainDigest, chainDigest, same]
  have legible : drawing.Legible := ⟨by decide, by decide⟩
  have legible' : redrawing.Legible := ⟨by decide, by decide⟩
  have apart : ¬ Collide (marked (drawing.shape ⟨4⟩)) (marked (redrawing.shape ⟨5⟩)) :=
    fun collide => collide.1 (congrArg marked same)
  have opens : ∀ key ∈ drawing.declaredKeys ⟨4⟩, OpensSignature '(' key := by
    show ∀ key ∈ [("name", "()"), ("area", "()")], OpensSignature '(' key
    simp only [List.forall_mem_cons, List.not_mem_nil, false_implies, implies_true, and_true]
    exact ⟨⟨by decide, by decide⟩, by decide, by decide⟩
  obtain ⟨told, keys⟩ := digest_tells_shape legible legible' apart
  exact ⟨legible, legible', apart, digest, (told.mp digest).1, opens, opens,
    keys digest '(' opens opens⟩

/-- A world with a class that declares one procedure. -/
def soloist (name signature : String) : World :=
  ((fresh.withType "C" false none []).defineProcedure
    ⟨⟨2⟩, name, signature, false, false, false, false⟩).2

theorem built_soloist (name signature : String) : (soloist name signature).Built := by
  have has : (fresh.withType "C" false none []).Has (.type ⟨2⟩) := by decide
  exact .defineProcedure _ (Built.fresh.withType _ _ (by decide)) has

/-- What ends one name and begins the other signature leaves the digest as it is. -/
theorem digest_blurs_name_and_signature :
    (soloist "run" "ner()").Built ∧ (soloist "runner" "()").Built ∧
      (soloist "run" "ner()").Legible ∧ (soloist "runner" "()").Legible ∧
      ¬ Collide (marked ((soloist "run" "ner()").shape ⟨2⟩))
        (marked ((soloist "runner" "()").shape ⟨2⟩)) ∧
      (soloist "run" "ner()").chainDigest ⟨2⟩ = (soloist "runner" "()").chainDigest ⟨2⟩ ∧
      (soloist "run" "ner()").declaredKeys ⟨2⟩ ≠ (soloist "runner" "()").declaredKeys ⟨2⟩ := by
  have chain (name signature : String) : (soloist name signature).superChain ⟨2⟩ = [⟨2⟩, ⟨0⟩] := by
    rw [superChain_of_some (s := ⟨0⟩) rfl, superChain_of_none rfl]
  have same : (soloist "run" "ner()").shape ⟨2⟩ = (soloist "runner" "()").shape ⟨2⟩ := by
    rw [shape, shape, chain, chain]
    decide
  refine ⟨built_soloist _ _, built_soloist _ _, ⟨by decide, by decide⟩, ⟨by decide, by decide⟩,
    fun collide => collide.1 (congrArg marked same), ?_, by decide⟩
  rw [chainDigest, chainDigest, same]

end World

end Provenance
