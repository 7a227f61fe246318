import Mathlib.Data.List.Permutation
import Mathlib.Data.Set.List
import Mathlib.Logic.Relation
import FlatExpr.Proofs.Documents
import FlatExpr.Storage.Dialect

/-!
# Stored dialects are read back, however they are presented

What is needed of a codec is stated once (`Codec.Spec`). It fixes the forms that are written, and
what is read from these and from their variants; of a document of any other form a codec may make
what it likes. Under every such codec a dialect is read back from each form in which it may be
stored, whatever the order in which the members of its sets are listed. Beyond that, what a document
is read as does not depend on its presentation. `Allowed.Reworded` and `Codec.Reworded` are the
single steps by which a document may differ, and each step keeps the dialect that is read.

Both results rest on one description of reading: a document holds a dialect exactly when each of its
eight parts, taken for itself, holds the allow-list of that part (`Codec.Spec.dialect?_object_iff`,
`Codec.Spec.dialect?_array_iff`). A part that is refused therefore makes the document refused.
-/

namespace FlatExpr

/-! ## What is needed of a codec -/

namespace Codec

/-- What the storage of dialects needs of a codec. -/
structure Spec (K : Codec) : Prop where
  /-- A document of texts, lists and records has a text, and is read back from it. -/
  print : ∀ j : Json, j.Textual → ∃ t, K.print? j = some t ∧ K.parse? t = some j
  /-- An object is read as a record by name. Fields of other names are passed over. An object is
  refused if one of the names is there twice, or if a name denotes no text. -/
  record_object : ∀ names fields, K.record? names (.object fields) =
    if Json.namesDenote fields then names.mapM (Json.only? · fields) else none
  /-- An array is read as a record by position, and refused if it is longer than the record. -/
  record_array : ∀ names items, K.record? names (.array items) =
    if items.length ≤ names.length then some ((List.range names.length).map (items[·]?)) else none
  /-- An object is read as a choice by name, in either order of the tag and the content. The tag has
  to be there; other fields are passed over, and the object is refused as for a record. -/
  tagged_object : ∀ tag content fields, tag ≠ content → K.tagged? tag content (.object fields) =
    if Json.namesDenote fields then
      (Json.only? tag fields).bind fun name =>
        (Json.only? content fields).bind fun value => name.map (·, value)
    else none
  /-- An array of two items is read as a choice, the tag first. -/
  tagged_array : ∀ tag content name value,
    K.tagged? tag content (.array [name, value]) = some (name, some value)
  /-- A string is read as a name if it is exactly one of the names. -/
  name_text : ∀ names t, K.name? names (.text t) = if t ∈ names then some t else none
  /-- A string is read as its text. -/
  text_text : ∀ t, K.text? (.text t) = some t
  /-- An array is read as the list of its items. -/
  items_array : ∀ items, K.items? (.array items) = some items
  /-- Without a content there is none. -/
  isVoid_none : K.isVoid none = true
  /-- A list is a content. -/
  isVoid_array : ∀ items, K.isVoid (some (.array items)) = false
  /-- A record is written as an object with its fields in order. -/
  ofRecord : ∀ fields, K.ofRecord fields = .object (fields.map fun f => (some f.1, f.2))
  /-- A choice is written as an object with the name of its tag, and with its content if it has
  one. -/
  ofTagged : ∀ tag content name value, K.ofTagged tag content name value =
    .object ((some tag, .text name) :: value.toList.map fun j => (some content, j))
  /-- A name is written as a string. -/
  ofName : ∀ t, K.ofName t = .text t
  /-- A text is written as a string. -/
  ofText : ∀ t, K.ofText t = .text t
  /-- A list is written as an array. -/
  ofItems : ∀ items, K.ofItems items = .array items

/-- The codec of the library is as it is needed. -/
theorem spec_json : json.Spec where
  print j h := ⟨j.pretty, rfl, h.parse?_write Json.Spacing.blank_lines 0⟩
  record_object _ _ := rfl
  record_array _ _ := rfl
  tagged_object tag content fields _ := by
    simp only [json]
    split
    · cases Json.only? tag fields with
      | none => rfl
      | some name => cases Json.only? content fields <;> cases name <;> rfl
    · rfl
  tagged_array _ _ _ _ := rfl
  name_text _ _ := rfl
  text_text _ := rfl
  items_array _ := rfl
  isVoid_none := rfl
  isVoid_array _ := rfl
  ofRecord _ := rfl
  ofTagged _ _ _ _ := rfl
  ofName _ := rfl
  ofText _ := rfl
  ofItems _ := rfl

end Codec

/-! ## Lists of which every item is read -/

section

variable {α β γ : Type}

/-- All values of a list are there exactly when the list of what may be missing misses none. -/
theorem mapM_eq_some_iff {f : α → Option β} {l : List α} {m : List β} :
    l.mapM f = some m ↔ l.map f = m.map some := by
  induction l generalizing m with
  | nil => cases m <;> simp
  | cons a l ih => cases m <;> simp [List.mapM_cons, Option.bind_eq_some_iff, ih]

/-- What is in the list of the values. -/
theorem mem_iff_of_mapM {f : α → Option β} {l : List α} {m : List β} (h : l.mapM f = some m)
    (b : β) : b ∈ m ↔ ∃ a ∈ l, f a = some b := by
  rw [← List.mem_map (f := f), mapM_eq_some_iff.1 h]
  simp

/-- All values of a list are there if each of them is, and only then. -/
theorem exists_mapM_iff {f : α → Option β} {l : List α} :
    (∃ m, l.mapM f = some m) ↔ ∀ a ∈ l, ∃ b, f a = some b := by
  have hrange : (∃ m, l.mapM f = some m) ↔ l.map f ∈ Set.range (List.map some) := by
    simp only [mapM_eq_some_iff, Set.mem_range, eq_comm]
  rw [hrange, Set.range_list_map]
  show (∀ o ∈ l.map f, o ∈ Set.range some) ↔ _
  rw [List.forall_mem_map]
  simp only [Set.mem_range, eq_comm]

/-- All values of a list are there and fit the items of another one exactly when each of them is
there and fits its item. -/
theorem exists_mapM_zip_iff {f : β → Option γ} {g : α → β} {P : α → γ → Prop} {l : List α} :
    (∃ m, (l.map g).mapM f = some m ∧ ∀ x ∈ l.zip m, P x.1 x.2) ↔
      ∀ a ∈ l, ∃ c, f (g a) = some c ∧ P a c := by
  induction l with
  | nil => simp
  | cons a l ih =>
    rw [List.forall_mem_cons, ← ih]
    constructor
    · rintro ⟨m, hm, hfits⟩
      rw [mapM_eq_some_iff] at hm
      cases m with
      | nil => cases hm
      | cons c m =>
        obtain ⟨hc, hm⟩ := List.cons.inj hm
        rw [List.zip_cons_cons, List.forall_mem_cons] at hfits
        exact ⟨⟨c, hc, hfits.1⟩, m, mapM_eq_some_iff.2 hm, hfits.2⟩
    · rintro ⟨⟨c, hc, hfits⟩, m, hm, hrest⟩
      refine ⟨c :: m, ?_, ?_⟩
      · rw [mapM_eq_some_iff, List.map_cons, List.map_cons, List.map_cons, hc,
          mapM_eq_some_iff.1 hm]
      · rw [List.zip_cons_cons, List.forall_mem_cons]
        exact ⟨hfits, hrest⟩

end

/-! ## Fields of a record -/

namespace Json

variable {fields fields' : List (Option Text × Json)} {name : Text}

/-- The order of the fields does not matter for the value of a name. -/
theorem only?_perm (h : fields.Perm fields') (name : Text) :
    only? name fields = only? name fields' := by
  have hperm := h.filter fun f => f.1 == some name
  unfold only?
  generalize (fields.filter fun f => f.1 == some name) = l at hperm ⊢
  generalize (fields'.filter fun f => f.1 == some name) = l' at hperm ⊢
  match l, l', hperm with
  | [], l', hperm => rw [List.nil_perm.1 hperm]
  | [f], l', hperm => rw [List.singleton_perm.1 hperm]
  | _ :: _ :: _, [], hperm => exact absurd hperm.length_eq (by simp)
  | _ :: _ :: _, [_], hperm => exact absurd hperm.length_eq (by simp)
  | _ :: _ :: _, _ :: _ :: _, _ => rfl

/-- A field of another name does not matter for the value of a name. -/
theorem only?_cons_of_ne {n : Text} (h : n ≠ name) (j : Json) :
    only? name ((some n, j) :: fields) = only? name fields := by
  simp [only?, h]

/-- A field gives the value of its name, unless a further field has that name. -/
theorem only?_cons_self_eq (j : Json) : only? name ((some name, j) :: fields) =
    (only? name fields).bind fun o => if o.isNone then some (some j) else none := by
  unfold only?
  rw [List.filter_cons_of_pos (by simp)]
  generalize (fields.filter fun f => f.1 == some name) = l
  match l with
  | [] => rfl
  | [_] => rfl
  | _ :: _ :: _ => rfl

/-- A field has the value of its name exactly when no further field has that name. -/
theorem only?_cons_self {j : Json} {o : Option Json} :
    only? name ((some name, j) :: fields) = some o ↔
      only? name fields = some none ∧ o = some j := by
  rw [only?_cons_self_eq, Option.bind_eq_some_iff]
  constructor
  · rintro ⟨_ | _, hnone, ho⟩
    · exact ⟨hnone, (Option.some.inj ho).symm⟩
    · cases ho
  · rintro ⟨hnone, rfl⟩
    exact ⟨none, hnone, rfl⟩

/-- The value of a name is that of every field with that name. -/
theorem eq_of_only? {o : Option Json} {j : Json} (h : only? name fields = some o)
    (hmem : (some name, j) ∈ fields) : o = some j := by
  obtain ⟨before, after, rfl⟩ := List.append_of_mem hmem
  rw [only?_perm List.perm_middle, only?_cons_self] at h
  exact h.2

/-- The order of the fields does not matter for whether their names denote texts. -/
theorem namesDenote_perm (h : fields.Perm fields') : namesDenote fields = namesDenote fields' :=
  h.all_eq

/-- A field whose name is a text does not matter for whether the names denote texts. -/
@[simp] theorem namesDenote_cons (n : Text) (j : Json) :
    namesDenote ((some n, j) :: fields) = namesDenote fields := by
  simp [namesDenote]

end Json

/-! ## Allow-lists -/

namespace Allowed

/-- One way to present the document of an allow-list otherwise. -/
inductive Reworded : Json → Json → Prop
  /-- The fields are in another order. -/
  | reorder {fields fields' : List (Option Text × Json)} (order : fields.Perm fields') :
    Reworded (.object fields) (.object fields')
  /-- There is another field, of an unknown name. -/
  | extend {fields : List (Option Text × Json)} {name : Text} (mode : name ≠ "mode".toList)
      (values : name ≠ "values".toList) (value : Json) :
    Reworded (.object fields) (.object ((some name, value) :: fields))
  /-- The values are in another order, or are repeated. -/
  | relist {fields : List (Option Text × Json)} {items items' : List Json}
      (same : ∀ j, j ∈ items ↔ j ∈ items') :
    Reworded (.object ((some "values".toList, .array items) :: fields))
      (.object ((some "values".toList, .array items') :: fields))
  /-- In an array of the mode and the values, the values are in another order, or are repeated. -/
  | relistPair {mode : Json} {items items' : List Json} (same : ∀ j, j ∈ items ↔ j ∈ items') :
    Reworded (.array [mode, .array items]) (.array [mode, .array items'])

/-- The document of an allow-list has an entry in its list of values. -/
inductive Lists : Json → Text → Prop
  /-- A text in the list that is the field of the values. -/
  | entry {fields : List (Option Text × Json)} {items : List Json} {t : Text}
      (values : (some "values".toList, .array items) ∈ fields) (mem : .text t ∈ items) :
    Lists (.object fields) t
  /-- A text in the list that comes after the mode. -/
  | pairEntry {mode : Json} {items : List Json} {t : Text} (mem : .text t ∈ items) :
    Lists (.array [mode, .array items]) t

theorem Mode.tag_ne_content : Mode.tag ≠ Mode.content := by decide

theorem Mode.mem_members (mode : Mode) : mode ∈ members := by
  cases mode <;> decide

end Allowed

namespace Codec

open Allowed (Mode)

variable {K : Codec} {α : Type} [Named α] {item? : Json → Option α}

/-- A string is read as the member of a vocabulary that has it as its name. -/
theorem Spec.member?_text (hK : K.Spec) {members : List α} (hall : ∀ a, a ∈ members) (t : Text) :
    K.member? members (.text t) = Named.ofName? t := by
  rw [member?, hK.name_text]
  split_ifs with h
  · rfl
  · refine (Option.eq_none_iff_forall_ne_some.2 fun a ha => h ?_).symm
    rw [← (Named.ofName?_eq_some_iff t a).1 ha]
    exact List.mem_map_of_mem (hall a)

/-- A list is read as the set of the values that its items are read as, if each is read as one. -/
theorem Spec.values?_eq_some_iff (hK : K.Spec) {items : List Json} {values : NameSet α} :
    K.values? item? (some (.array items)) = some values ↔
      (∀ j ∈ items, ∃ a, item? j = some a) ∧
        ∀ a, a ∈ values.members ↔ ∃ j ∈ items, item? j = some a := by
  have hread : K.values? item? (some (.array items)) = some values ↔
      ∃ listed, items.mapM item? = some listed ∧ NameSet.ofList listed = values := by
    simp only [values?, hK.items_array, Option.bind_eq_bind, Option.bind_some,
      Option.bind_eq_some_iff, Option.pure_def, Option.some.injEq]
  rw [hread]
  constructor
  · rintro ⟨listed, hlisted, rfl⟩
    refine ⟨exists_mapM_iff.1 ⟨listed, hlisted⟩, fun a => ?_⟩
    rw [NameSet.mem_ofList, mem_iff_of_mapM hlisted]
  · rintro ⟨hsome, hvalues⟩
    obtain ⟨listed, hlisted⟩ := exists_mapM_iff.2 hsome
    refine ⟨listed, hlisted, NameSet.ext_mem fun a => ?_⟩
    rw [NameSet.mem_ofList, mem_iff_of_mapM hlisted, hvalues]

/-- What is allowed does not depend on the order and the number of the values in a list. -/
theorem Spec.ofMode?_congr (hK : K.Spec) {items items' : List Json}
    (same : ∀ j, j ∈ items ↔ j ∈ items') (mode : Json) :
    K.ofMode? item? mode (some (.array items)) = K.ofMode? item? mode (some (.array items')) := by
  have hvalues : K.values? item? (some (.array items)) =
      K.values? item? (some (.array items')) := by
    ext values
    simp only [hK.values?_eq_some_iff, same]
  simp only [ofMode?, hvalues, hK.isVoid_array]

/-- An allow-list is read from what a document gives as its mode and its values. -/
theorem allowed?_eq_bind (j : Json) : K.allowed? item? j =
    (K.tagged? Mode.tag Mode.content j).bind fun x => K.ofMode? item? x.1 x.2 := rfl

/-- Whether an object with a content is read as a choice, and with which tag, does not depend on the
content. -/
theorem Spec.tagged?_cons_content (hK : K.Spec) (fields : List (Option Text × Json)) :
    ∃ mode? : Option Json, ∀ values, K.tagged? Mode.tag Mode.content
      (.object ((some Mode.content, values) :: fields)) = mode?.map (·, some values) := by
  -- the tag of the other fields, if there is no content among them
  refine ⟨(K.tagged? Mode.tag Mode.content (.object fields)).bind fun x =>
    if x.2.isNone then some x.1 else none, fun values => ?_⟩
  have htag : Json.only? Mode.tag ((some Mode.content, values) :: fields) =
      Json.only? Mode.tag fields := Json.only?_cons_of_ne Mode.tag_ne_content.symm values
  rw [hK.tagged_object _ _ _ Mode.tag_ne_content, hK.tagged_object _ _ _ Mode.tag_ne_content,
    Json.namesDenote_cons, htag, Json.only?_cons_self_eq]
  split
  · cases Json.only? Mode.tag fields with
    | none => rfl
    | some name =>
      cases Json.only? Mode.content fields with
      | none => rfl
      | some o => cases o <;> cases name <;> rfl
  · rfl

/-- A document that is presented otherwise holds the same allow-list, if it holds one. -/
theorem Spec.allowed?_eq_of_reworded (hK : K.Spec) {j j' : Json} (h : Allowed.Reworded j j') :
    K.allowed? item? j = K.allowed? item? j' := by
  cases h with
  | reorder order =>
    simp only [allowed?_eq_bind, hK.tagged_object _ _ _ Mode.tag_ne_content,
      Json.namesDenote_perm order, Json.only?_perm order]
  | @extend fields name mode values value =>
    have htag : name ≠ Mode.tag := mode
    have hcontent : name ≠ Mode.content := values
    simp only [allowed?_eq_bind, hK.tagged_object _ _ _ Mode.tag_ne_content,
      Json.namesDenote_cons, Json.only?_cons_of_ne htag, Json.only?_cons_of_ne hcontent]
  | @relist fields items items' same =>
    obtain ⟨mode?, htagged⟩ := hK.tagged?_cons_content fields
    have hread : ∀ values, K.allowed? item? (.object ((some Mode.content, values) :: fields)) =
        mode?.bind fun mode => K.ofMode? item? mode (some values) := by
      intro values
      rw [allowed?_eq_bind, htagged, Option.bind_map]
      rfl
    calc K.allowed? item? (.object ((some Mode.content, .array items) :: fields))
        = mode?.bind fun mode => K.ofMode? item? mode (some (.array items)) := hread _
      _ = mode?.bind fun mode => K.ofMode? item? mode (some (.array items')) := by
        simp only [hK.ofMode?_congr same]
      _ = K.allowed? item? (.object ((some Mode.content, .array items') :: fields)) :=
        (hread _).symm
  | relistPair same =>
    simp only [allowed?_eq_bind, hK.tagged_array, Option.bind_some, hK.ofMode?_congr same]

/-- What is written for a mode and a list of values is read as what they are read as. -/
theorem Spec.allowed?_ofMode (hK : K.Spec) (mode : Mode) (values : Option (List Json)) :
    K.allowed? item? (K.ofMode mode values) =
      K.ofMode? item? (.text (Named.name mode)) (values.map .array) := by
  rw [allowed?_eq_bind, ofMode, hK.ofTagged, hK.tagged_object _ _ _ Mode.tag_ne_content]
  cases values with
  | none => rfl
  | some items =>
    rw [Option.map_some, hK.ofItems]
    rfl

/-- A mode is read by its name. -/
theorem Spec.member?_mode (hK : K.Spec) (mode : Mode) :
    K.member? Mode.members (.text (Named.name mode)) = some mode := by
  rw [hK.member?_text Mode.mem_members, Named.ofName?_name]

/-- The documents of the members of a set, in any order, are read as the set. -/
theorem Spec.values?_map (hK : K.Spec) {item : α → Json} (hitem : ∀ a, item? (item a) = some a)
    {values : NameSet α} {listed : List α} (order : listed.Perm values.members) :
    K.values? item? (some (.array (listed.map item))) = some values := by
  refine hK.values?_eq_some_iff.2 ⟨fun j hj => ?_, fun a => ?_⟩
  · obtain ⟨a, -, rfl⟩ := List.mem_map.1 hj
    exact ⟨a, hitem a⟩
  · simp [order.mem_iff.symm, hitem]

/-- What is written for an allow-list is read as that allow-list. -/
theorem Spec.allowed?_ofAllowed (hK : K.Spec) {item : α → Json}
    (hitem : ∀ a, item? (item a) = some a) {order : NameSet α → List α}
    (horder : ∀ values, (order values).Perm values.members) (allowed : Allowed α) :
    K.allowed? item? (K.ofAllowed item order allowed) = some allowed := by
  cases allowed with
  | all => simp [ofAllowed, hK.allowed?_ofMode, ofMode?, hK.member?_mode, hK.isVoid_none]
  | none => simp [ofAllowed, hK.allowed?_ofMode, ofMode?, hK.member?_mode, hK.isVoid_none]
  | only values =>
    simp [ofAllowed, hK.allowed?_ofMode, ofMode?, hK.member?_mode,
      hK.values?_map hitem (horder values)]
  | except values =>
    simp [ofAllowed, hK.allowed?_ofMode, ofMode?, hK.member?_mode,
      hK.values?_map hitem (horder values)]

/-- What is written for a mode consists of texts, if this is so for its values. -/
theorem Spec.textual_ofMode (hK : K.Spec) (mode : Mode) {values : Option (List Json)}
    (hvalues : ∀ items ∈ values, ∀ j ∈ items, j.Textual) : (K.ofMode mode values).Textual := by
  rw [ofMode, hK.ofTagged]
  cases values with
  | none => exact .object (by simp) (by simp [Json.Textual.text])
  | some items =>
    have hitems : Json.Textual (.array items) := .array (hvalues items rfl)
    rw [Option.map_some, hK.ofItems]
    exact .object (by simp) (by simp [Json.Textual.text, hitems])

/-- What is written for an allow-list consists of texts, if this is so for its values. -/
theorem Spec.textual_ofAllowed (hK : K.Spec) {item : α → Json} (hitem : ∀ a, (item a).Textual)
    (order : NameSet α → List α) (allowed : Allowed α) :
    (K.ofAllowed item order allowed).Textual := by
  have hlist : ∀ values, ∀ items ∈ some ((order values).map item), ∀ j ∈ items, j.Textual := by
    rintro values items ⟨⟩ j hj
    obtain ⟨a, -, rfl⟩ := List.mem_map.1 hj
    exact hitem a
  cases allowed with
  | all => exact hK.textual_ofMode _ nofun
  | none => exact hK.textual_ofMode _ nofun
  | only values => exact hK.textual_ofMode _ (hlist values)
  | except values => exact hK.textual_ofMode _ (hlist values)

/-- A list with an item that is not read fits no mode. -/
theorem Spec.ofMode?_eq_none (hK : K.Spec) {items : List Json} {j : Json} (hmem : j ∈ items)
    (hitem : item? j = none) (mode : Json) :
    K.ofMode? item? mode (some (.array items)) = none := by
  have hset : K.values? item? (some (.array items)) = none := by
    refine Option.eq_none_iff_forall_ne_some.2 fun values hvalues => ?_
    obtain ⟨a, ha⟩ := (hK.values?_eq_some_iff.1 hvalues).1 j hmem
    rw [hitem] at ha
    cases ha
  -- two of the modes have no content, and a list is one
  simp only [ofMode?, hK.isVoid_array, hset]
  cases K.member? Mode.members mode with
  | none => rfl
  | some mode => cases mode <;> rfl

/-- A list with an entry that is not read is refused, under every mode. -/
theorem Spec.allowed?_of_lists (hK : K.Spec) {j : Json} {t : Text} (h : Allowed.Lists j t)
    (hitem : item? (.text t) = none) : K.allowed? item? j = none := by
  cases h with
  | @entry fields items t hvalues hmem =>
    refine Option.eq_none_iff_forall_ne_some.2 fun allowed hallowed => ?_
    rw [allowed?_eq_bind, hK.tagged_object _ _ _ Mode.tag_ne_content] at hallowed
    split_ifs at hallowed
    · simp only [Option.bind_eq_some_iff, Option.map_eq_some_iff] at hallowed
      obtain ⟨_, ⟨_, _, values, honly, mode, rfl, rfl⟩, hallowed⟩ := hallowed
      obtain rfl := Json.eq_of_only? honly hvalues
      rw [hK.ofMode?_eq_none hmem hitem] at hallowed
      cases hallowed
    · cases hallowed
  | pairEntry hmem =>
    rw [allowed?_eq_bind, hK.tagged_array, Option.bind_some, hK.ofMode?_eq_none hmem hitem]

end Codec

/-! ## The parts of a dialect -/

namespace Dialect

variable {d e : Dialect} {p q : Part}

@[simp] theorem allowed_set_self (d : Dialect) (p : Part) (a : Allowed p.Value) :
    (d.set p a).allowed p = a := by
  cases p <;> rfl

theorem allowed_set_of_ne (h : q ≠ p) (d : Dialect) (a : Allowed p.Value) :
    (d.set p a).allowed q = d.allowed q := by
  cases p <;> cases q <;> simp_all [set, allowed]

theorem set_allowed (d : Dialect) (p : Part) : d.set p (d.allowed p) = d := by
  cases p <;> rfl

theorem allowed_full (p : Part) : full.allowed p = .all := by
  cases p <;> rfl

/-- Dialects with the same allow-lists are equal. -/
theorem ext_allowed (h : ∀ p, d.allowed p = e.allowed p) : d = e := by
  cases d
  cases e
  congr
  · exact h .identifiers
  · exact h .numerics
  · exact h .prefixes
  · exact h .infixes
  · exact h .postfixes
  · exact h .separators
  · exact h .quotes
  · exact h .brackets

theorem Part.mem_all (p : Part) : p ∈ all := by
  cases p <;> decide

theorem Part.nodup_all : all.Nodup := by decide

/-- A vocabulary holds every value of its part. -/
theorem Part.mem_of_vocabulary? {members : List p.Value} (h : p.vocabulary? = some members)
    (a : p.Value) : a ∈ members := by
  cases p with
  | identifiers => cases h
  | numerics => cases h
  | _ =>
    cases h
    cases a <;> decide

end Dialect

namespace Codec

open Dialect (Part Order)

variable {K : Codec} {d e : Dialect} {p q : Part}

/-- A string is read as the value of a part that has it as its name. -/
theorem Spec.item?_text (hK : K.Spec) (p : Part) (t : Text) :
    K.item? p (.text t) = Named.ofName? t := by
  unfold item?
  split
  · rw [hK.text_text]
    rfl
  · next members h => exact hK.member?_text (Part.mem_of_vocabulary? h) t

/-- A value of a part is written as the string of its name. -/
theorem Spec.item_eq (hK : K.Spec) (p : Part) (a : p.Value) :
    K.item p a = .text (Named.name a) := by
  unfold item
  split
  · exact hK.ofText _
  · exact hK.ofName _

/-- What is written for a part is read as the allow-list of the part. -/
theorem Spec.part?_ofPart (hK : K.Spec) {order : Order}
    (horder : ∀ p values, (order p values).Perm values.members) (d : Dialect) (p : Part) :
    K.part? p (K.ofPart order d p) = some (d.allowed p) := by
  refine hK.allowed?_ofAllowed (fun a => ?_) (horder p) _
  rw [hK.item_eq, hK.item?_text, Named.ofName?_name]

/-! ## Reading a dialect is reading its parts -/

/-- The allow-list of a part that is `default` when it is missing. -/
def field? (K : Codec) (p : Part) (default : Allowed p.Value) :
    Option Json → Option (Allowed p.Value)
  | none => some default
  | some j => K.part? p j

/-- One part more: it is read for itself, with the allow-list that is there as its default. -/
theorem setParts?_cons (d : Dialect) (p : Part) (o : Option Json)
    (parts : List (Part × Option Json)) :
    K.setParts? d ((p, o) :: parts) = (K.field? p (d.allowed p) o).bind fun a =>
      K.setParts? (d.set p a) parts := by
  cases o with
  | none => rw [setParts?, field?, Option.bind_some, Dialect.set_allowed]
  | some j =>
    rw [setParts?, field?, setPart?]
    cases K.part? p j <;> rfl

/-- Setting parts gives a dialect exactly when each of them is read as the allow-list of that
dialect, and the others stay. -/
theorem setParts?_eq_some_iff {parts : List (Part × Option Json)}
    (hparts : (parts.map Prod.fst).Nodup) :
    K.setParts? d parts = some e ↔
      (∀ x ∈ parts, K.field? x.1 (d.allowed x.1) x.2 = some (e.allowed x.1)) ∧
      ∀ p ∉ parts.map Prod.fst, e.allowed p = d.allowed p := by
  -- a part that was set is not set again, so that its allow-list is found at the end
  induction parts generalizing d with
  | nil =>
    constructor
    · rintro ⟨⟩
      exact ⟨nofun, fun p _ => rfl⟩
    · rintro ⟨-, hkept⟩
      exact congrArg some (Dialect.ext_allowed fun p => (hkept p List.not_mem_nil).symm)
  | cons x parts ih =>
    obtain ⟨p, o⟩ := x
    obtain ⟨hp, hparts⟩ := List.nodup_cons.1 hparts
    have hne : ∀ x ∈ parts, x.1 ≠ p := by
      rintro x hx rfl
      exact hp (List.mem_map.2 ⟨x, hx, rfl⟩)
    rw [setParts?_cons, Option.bind_eq_some_iff]
    simp only [ih hparts, List.forall_mem_cons]
    simp only [List.map_cons, List.mem_cons, not_or]
    constructor
    · rintro ⟨a, ha, hread, hkept⟩
      obtain rfl : e.allowed p = a := by rw [hkept p hp, Dialect.allowed_set_self]
      refine ⟨⟨ha, fun x hx => ?_⟩, fun q hq => ?_⟩
      · rw [← hread x hx, Dialect.allowed_set_of_ne (hne x hx)]
      · rw [hkept q hq.2, Dialect.allowed_set_of_ne hq.1]
    · rintro ⟨⟨ho, hread⟩, hkept⟩
      refine ⟨e.allowed p, ho, fun x hx => ?_, fun q hq => ?_⟩
      · rw [Dialect.allowed_set_of_ne (hne x hx), hread x hx]
      · by_cases hqp : q = p
        · rw [hqp, Dialect.allowed_set_self]
        · rw [Dialect.allowed_set_of_ne hqp, hkept q ⟨hqp, hq⟩]

/-- Parts are read as a dialect exactly when each of them is read as an allow-list of it; what is
missing allows everything. -/
theorem setParts?_full {docs : List (Option Json)} (hdocs : docs.length = Part.all.length) :
    K.setParts? .full (Part.all.zip docs) = some d ↔
      ∀ x ∈ Part.all.zip docs, K.field? x.1 .all x.2 = some (d.allowed x.1) := by
  have hfst : (Part.all.zip docs).map Prod.fst = Part.all := List.map_fst_zip hdocs.ge
  rw [setParts?_eq_some_iff (by rw [hfst]; exact Part.nodup_all), hfst]
  simp only [Dialect.allowed_full, Part.mem_all, not_true_eq_false, false_imp_iff, implies_true,
    and_true]

/-- An object holds a dialect exactly when each part has one field at most, which holds the
allow-list of the part. -/
theorem Spec.dialect?_object_iff (hK : K.Spec) {fields : List (Option Text × Json)} :
    K.dialect? (.object fields) = some d ↔ Json.namesDenote fields ∧
      ∀ p : Part, ∃ o, Json.only? p.name fields = some o ∧
        K.field? p .all o = some (d.allowed p) := by
  have hlength : ∀ {docs}, (Part.all.map Part.name).mapM (Json.only? · fields) = some docs →
      docs.length = Part.all.length := fun h => by
    simpa using (congrArg List.length (mapM_eq_some_iff.1 h)).symm
  have hread : (∀ p : Part, ∃ o, Json.only? p.name fields = some o ∧
      K.field? p .all o = some (d.allowed p)) ↔
      ∃ docs, (Part.all.map Part.name).mapM (Json.only? · fields) = some docs ∧
        ∀ x ∈ Part.all.zip docs, K.field? x.1 .all x.2 = some (d.allowed x.1) := by
    rw [exists_mapM_zip_iff (P := fun p o => K.field? p .all o = some (d.allowed p))]
    simp only [Part.mem_all, true_imp_iff]
  rw [dialect?, hK.record_object, hread]
  split_ifs with hnames
  · simp only [Option.bind_eq_bind, Option.bind_eq_some_iff, hnames, true_and]
    exact exists_congr fun docs => and_congr_right fun h => setParts?_full (hlength h)
  · simp [hnames]

/-- An array holds a dialect exactly when each item holds the allow-list of the part at its
place. -/
theorem Spec.dialect?_array_iff (hK : K.Spec) {items : List Json} :
    K.dialect? (.array items) = some d ↔ items.length ≤ Part.all.length ∧
      ∀ p : Part, K.field? p .all items[Part.all.idxOf p]? = some (d.allowed p) := by
  have hzip : Part.all.zip ((List.range Part.all.length).map (items[·]?)) =
      Part.all.map fun p => (p, items[Part.all.idxOf p]?) := rfl
  rw [dialect?, hK.record_array, List.length_map]
  split_ifs with hlength
  · rw [Option.bind_eq_bind, Option.bind_some, setParts?_full (by simp), hzip]
    simp only [List.forall_mem_map, Part.mem_all, true_imp_iff, hlength, true_and]
  · simp [hlength]

/-- The dialect of a text is that of the document in it. -/
theorem load?_eq {t : Text} {j : Json} (h : K.parse? t = some j) : K.load? t = K.dialect? j := by
  rw [load?, h]
  rfl

/-! ## Storage -/

/-- What is written for a dialect consists of texts. -/
theorem Spec.textual_ofDialect (hK : K.Spec) (order : Order) (d : Dialect) :
    (K.ofDialect order d).Textual := by
  rw [ofDialect, hK.ofRecord, List.map_map]
  refine .object (fun f hf => ?_) fun f hf => ?_
  · obtain ⟨p, -, rfl⟩ := List.mem_map.1 hf
    rfl
  · obtain ⟨p, -, rfl⟩ := List.mem_map.1 hf
    refine hK.textual_ofAllowed (fun a => ?_) (order p) (d.allowed p)
    rw [hK.item_eq]
    exact .text _

/-- What is written for a dialect is read as that dialect. -/
theorem Spec.dialect?_ofDialect (hK : K.Spec) {order : Order}
    (horder : ∀ p values, (order p values).Perm values.members) (d : Dialect) :
    K.dialect? (K.ofDialect order d) = some d := by
  rw [ofDialect, hK.ofRecord, List.map_map]
  refine hK.dialect?_object_iff.2 ⟨rfl, fun p => ⟨some (K.ofPart order d p), ?_, ?_⟩⟩
  · cases p <;> rfl
  · exact hK.part?_ofPart horder d p

/-- A dialect has a stored form, from which it is read back. -/
theorem Spec.load?_dump (hK : K.Spec) {order : Order}
    (horder : ∀ p values, (order p values).Perm values.members) (d : Dialect) :
    ∃ t, K.dump? order d = some t ∧ K.load? t = some d := by
  obtain ⟨t, hprint, hparse⟩ := hK.print _ (hK.textual_ofDialect order d)
  exact ⟨t, hprint, (load?_eq hparse).trans (hK.dialect?_ofDialect horder d)⟩

/-! ## Presentation -/

/-- One way to present the document of a dialect otherwise. -/
inductive Reworded (K : Codec) : Json → Json → Prop
  /-- The fields are in another order. -/
  | reorder {fields fields' : List (Option Text × Json)} (order : fields.Perm fields') :
    Reworded K (.object fields) (.object fields')
  /-- There is another field, of an unknown name. -/
  | extend {fields : List (Option Text × Json)} {name : Text}
      (unknown : ∀ p : Part, name ≠ p.name) (value : Json) :
    Reworded K (.object fields) (.object ((some name, value) :: fields))
  /-- A part that allows everything is left out. -/
  | leaveOut {fields : List (Option Text × Json)} {p : Part} {j : Json}
      (all : K.part? p j = some .all) :
    Reworded K (.object ((some p.name, j) :: fields)) (.object fields)
  /-- A part is presented otherwise. -/
  | field {fields : List (Option Text × Json)} {j j' : Json} (p : Part)
      (step : Allowed.Reworded j j') :
    Reworded K (.object ((some p.name, j) :: fields)) (.object ((some p.name, j') :: fields))
  /-- In a list of parts, the last part allows everything and is left out. -/
  | leaveOutLast {items : List Json} {j : Json} (all : ∀ p : Part, K.part? p j = some .all) :
    Reworded K (.array (items ++ [j])) (.array items)
  /-- In a list of parts, a part is presented otherwise. -/
  | item {before after : List Json} {j j' : Json} (step : Allowed.Reworded j j') :
    Reworded K (.array (before ++ j :: after)) (.array (before ++ j' :: after))

/-- The mode under which everything is allowed is read so, in every part. -/
theorem Spec.part?_mode_all (hK : K.Spec) (p : Part) :
    K.part? p (.record [("mode", .text "all".toList)]) = some .all := by
  have hdoc : K.ofMode .all none = .record [("mode", .text "all".toList)] := hK.ofTagged _ _ _ _
  rw [part?, ← hdoc, hK.allowed?_ofMode]
  simp [ofMode?, hK.member?_mode, hK.isVoid_none]

/-- A field of one part does not matter for the others. -/
theorem only?_name_cons_of_ne (h : q ≠ p) (j : Json) (fields : List (Option Text × Json)) :
    Json.only? q.name ((some p.name, j) :: fields) = Json.only? q.name fields :=
  Json.only?_cons_of_ne (fun hname => h (Named.name_inj hname).symm) j

/-- An object that starts with the field of a part holds a dialect exactly when there is no further
field of that part, the field holds the allow-list of the part and the rest those of the others. -/
theorem Spec.dialect?_object_cons_iff (hK : K.Spec) {j : Json}
    {fields : List (Option Text × Json)} :
    K.dialect? (.object ((some p.name, j) :: fields)) = some d ↔
      Json.only? p.name fields = some none ∧ K.part? p j = some (d.allowed p) ∧
      Json.namesDenote fields ∧ ∀ q ≠ p, ∃ o, Json.only? q.name fields = some o ∧
        K.field? q .all o = some (d.allowed q) := by
  rw [hK.dialect?_object_iff, Json.namesDenote_cons]
  constructor
  · rintro ⟨hnames, hparts⟩
    obtain ⟨o, honly, ho⟩ := hparts p
    obtain ⟨hnone, rfl⟩ := Json.only?_cons_self.1 honly
    refine ⟨hnone, ho, hnames, fun q hq => ?_⟩
    rw [← only?_name_cons_of_ne hq j]
    exact hparts q
  · rintro ⟨hnone, hj, hnames, hparts⟩
    refine ⟨hnames, fun q => ?_⟩
    by_cases hq : q = p
    · subst hq
      exact ⟨some j, Json.only?_cons_self.2 ⟨hnone, rfl⟩, hj⟩
    · rw [only?_name_cons_of_ne hq]
      exact hparts q hq

/-- A document that is presented otherwise holds the same dialect. -/
theorem Spec.dialect?_of_step (hK : K.Spec) {j j' : Json} (h : K.Reworded j j')
    (hj : K.dialect? j = some d) : K.dialect? j' = some d := by
  cases h with
  | reorder order =>
    simpa only [hK.dialect?_object_iff, Json.namesDenote_perm order, Json.only?_perm order] using hj
  | extend unknown value =>
    simpa only [hK.dialect?_object_iff, Json.namesDenote_cons, Json.only?_cons_of_ne (unknown _)]
      using hj
  | @leaveOut fields p j hall =>
    obtain ⟨hnone, hpart, hnames, hparts⟩ := hK.dialect?_object_cons_iff.1 hj
    rw [hall] at hpart
    refine hK.dialect?_object_iff.2 ⟨hnames, fun q => ?_⟩
    by_cases hq : q = p
    · subst hq
      exact ⟨none, hnone, hpart⟩
    · exact hparts q hq
  | field p step =>
    rw [hK.dialect?_object_cons_iff] at hj ⊢
    rwa [part?, ← hK.allowed?_eq_of_reworded step]
  | @leaveOutLast items j hall =>
    obtain ⟨hlength, hparts⟩ := hK.dialect?_array_iff.1 hj
    rw [List.length_append] at hlength
    refine hK.dialect?_array_iff.2 ⟨by omega, fun p => ?_⟩
    rw [← hparts p, List.getElem?_append]
    split
    · rfl
    · next hout =>
      rw [List.getElem?_eq_none (Nat.le_of_not_lt hout)]
      cases Part.all.idxOf p - items.length with
      | zero => exact (hall p).symm
      | succ n => rfl
  | @item before after j j' step =>
    obtain ⟨hlength, hparts⟩ := hK.dialect?_array_iff.1 hj
    refine hK.dialect?_array_iff.2 ⟨by simpa using hlength, fun p => ?_⟩
    rw [← hparts p, List.getElem?_append, List.getElem?_append]
    split
    · rfl
    · cases Part.all.idxOf p - before.length with
      | zero => exact (hK.allowed?_eq_of_reworded step).symm
      | succ n => rfl

/-- A document that is presented otherwise in any number of ways holds the same dialect. -/
theorem Spec.dialect?_of_reworded (hK : K.Spec) {j j' : Json}
    (h : Relation.ReflTransGen K.Reworded j j') (hj : K.dialect? j = some d) :
    K.dialect? j' = some d := by
  induction h with
  | refl => exact hj
  | tail _ step ih => exact hK.dialect?_of_step step ih

/-! ## Refusal -/

/-- The document of a part, as a field or as an item of the document of a dialect. -/
inductive Gives (p : Part) (part : Json) : Json → Prop
  /-- A field of the name of the part. -/
  | field {fields : List (Option Text × Json)} (mem : (some p.name, part) ∈ fields) :
    Gives p part (.object fields)
  /-- The item at the place of the part. -/
  | item {items : List Json} (place : items[Part.all.idxOf p]? = some part) :
    Gives p part (.array items)

/-- The document of a part is read as the allow-list of that part. -/
theorem Spec.part?_of_gives (hK : K.Spec) {part j : Json} (h : Gives p part j)
    (hj : K.dialect? j = some d) : K.part? p part = some (d.allowed p) := by
  cases h with
  | field mem =>
    obtain ⟨o, honly, ho⟩ := (hK.dialect?_object_iff.1 hj).2 p
    obtain rfl := Json.eq_of_only? honly mem
    exact ho
  | item place =>
    have ho := (hK.dialect?_array_iff.1 hj).2 p
    rwa [place] at ho

/-- A list with an entry that names no value of its part makes the whole document refused. -/
theorem Spec.dialect?_of_lists (hK : K.Spec) {part j : Json} {name : Text} (h : Gives p part j)
    (hlists : Allowed.Lists part name) (hstranger : ∀ a : p.Value, Named.name a ≠ name) :
    K.dialect? j = none := by
  have hitem : K.item? p (.text name) = none := by
    rw [hK.item?_text]
    exact Option.eq_none_iff_forall_ne_some.2 fun a ha =>
      hstranger a ((Named.ofName?_eq_some_iff name a).1 ha)
  have hpart : K.part? p part = none := hK.allowed?_of_lists hlists hitem
  refine Option.eq_none_iff_forall_ne_some.2 fun d hj => ?_
  rw [hK.part?_of_gives h hj] at hpart
  cases hpart

/-- Dialects survive storage, and what is loaded does not depend on presentation, under every codec
that is as it is needed.

Every dialect has a stored form from which it is loaded, whatever the order in which the members of
its sets are listed. A text whose document is that of another one but for its presentation loads the
same dialect. A text in which the list of a part has a string that is no stored name of a value of
that part is refused; in the parts for identifiers and numerics every text is the name of a
value. -/
theorem load?_stored (K : Codec) (hK : K.Spec) :
    (∀ (d : Dialect) (order : Order), (∀ p values, (order p values).Perm values.members) →
      ∃ t, K.dump? order d = some t ∧ K.load? t = some d) ∧
    (∀ (t t' : Text) (j j' : Json) (d : Dialect), K.parse? t = some j → K.parse? t' = some j' →
      Relation.ReflTransGen K.Reworded j j' → K.load? t = some d → K.load? t' = some d) ∧
    (∀ (t : Text) (j part : Json) (p : Part) (name : Text), K.parse? t = some j →
      Gives p part j → Allowed.Lists part name → (∀ a : p.Value, Named.name a ≠ name) →
      K.load? t = none) := by
  refine ⟨fun d order horder => hK.load?_dump horder d, ?_, ?_⟩
  · intro t t' j j' d ht ht' hsteps hload
    rw [load?_eq ht] at hload
    rw [load?_eq ht']
    exact hK.dialect?_of_reworded hsteps hload
  · intro t j part p name ht hgives hlists hstranger
    rw [load?_eq ht]
    exact hK.dialect?_of_lists hgives hlists hstranger

/-- A field that allows the separators with some names, and no others. -/
def separatorsOnly (names : List String) : Option Text × Json :=
  (some "separators".toList, .record
    [("values", .array (names.map fun n => .text n.toList)), ("mode", .text "only".toList)])

/-- A dialect with two separators only is read back from a stored form in which they are listed
backwards, and from a document in which one of them is listed twice, another part is left out and a
note is added. Listed after the mode instead, and one of them as the name of a field, they may be
repeated as well. A name in lower case is refused. -/
theorem load?_stored_separators :
    (∃ t, json.dump? (fun _ values => values.members.reverse)
        { separators := .only (.ofList [.comma, .dot]) } = some t ∧
      json.load? t = some { separators := .only (.ofList [.comma, .dot]) }) ∧
    json.load? (Json.object [(some "note".toList, .null),
        separatorsOnly ["DOT", "COMMA", "DOT"]]).compact =
      some { separators := .only (.ofList [.comma, .dot]) } ∧
    json.load? (Json.object [(some "separators".toList, .array [.text "only".toList,
        .array [.text "DOT".toList, .record [("COMMA", .null)], .text "DOT".toList]])]).compact =
      some { separators := .only (.ofList [.comma, .dot]) } ∧
    json.load? (Json.object [separatorsOnly ["COMMA", "dot"]]).compact = none := by
  obtain ⟨hstored, hreworded, hrefused⟩ := load?_stored json spec_json
  refine ⟨hstored _ _ fun p values => List.reverse_perm _, ?_, ?_, ?_⟩
  · have hsteps : Relation.ReflTransGen json.Reworded
        (.object [(some "quotes".toList, .record [("mode", .text "all".toList)]),
          separatorsOnly ["COMMA", "DOT"]])
        (.object [(some "note".toList, .null), separatorsOnly ["DOT", "COMMA", "DOT"]]) := by
      refine .head (.leaveOut (p := .quotes) (spec_json.part?_mode_all .quotes))
        (.head (.field .separators (.relist ?_)) (.single (.extend ?_ .null)))
      · intro j
        simp only [List.map_cons, List.map_nil, List.mem_cons, List.not_mem_nil, or_false]
        tauto
      · intro p
        cases p <;> decide
    exact hreworded (Json.object [(some "quotes".toList, .record [("mode", .text "all".toList)]),
      separatorsOnly ["COMMA", "DOT"]]).compact _ _ _ _ (by cbv) (by cbv) hsteps
      (by decide +kernel)
  · have hstep : json.Reworded
        (.object [(some "separators".toList, .array [.text "only".toList,
          .array [.text "DOT".toList, .record [("COMMA", .null)]]])])
        (.object [(some "separators".toList, .array [.text "only".toList,
          .array [.text "DOT".toList, .record [("COMMA", .null)], .text "DOT".toList]])]) := by
      refine .field .separators (.relistPair fun j => ?_)
      simp only [List.mem_cons, List.not_mem_nil, or_false]
      tauto
    exact hreworded (Json.object [(some "separators".toList, .array [.text "only".toList,
      .array [.text "DOT".toList, .record [("COMMA", .null)]]])]).compact _ _ _ _ (by cbv) (by cbv)
      (.single hstep) (by decide +kernel)
  · refine hrefused _ (.object [separatorsOnly ["COMMA", "dot"]])
      (separatorsOnly ["COMMA", "dot"]).2 .separators "dot".toList (by cbv) (.field (.head _))
      (.entry (.head _) (.tail _ (.head _))) ?_
    intro a
    cases a <;> decide

end Codec

end FlatExpr
