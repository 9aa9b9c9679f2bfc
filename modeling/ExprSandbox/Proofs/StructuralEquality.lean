import ExprSandbox.Proofs.Contents
import ExprSandbox.Proofs.LooseEquality

/-!
# Structural equality

Two arrays have the same content where they have it at every index, and two objects where they
have it under every key (`sameContent_array_iff`, `sameContent_object_iff`); the second needs that
the objects have each key once, since it is lengths and one-sided look-ups that are compared.
From these two follow symmetry and transitivity, that the order of keys does not count, and that
a value has its own content exactly where it contains no NaN.
-/

namespace ExprSandbox

/-! ## Options side by side -/

section Rel

variable {α : Type} {R : α → α → Prop} {x y z : Option α}

/-- A relation of options in the other direction. -/
theorem rel_swap (h : Option.Rel R x y)
    (swap : ∀ a b, x = some a → y = some b → R a b → R b a) : Option.Rel R y x := by
  cases h with
  | none => exact .none
  | some hab => exact .some (swap _ _ rfl rfl hab)

/-- Two relations of options in a row. -/
theorem rel_comp (hxy : Option.Rel R x y) (hyz : Option.Rel R y z)
    (comp : ∀ a b c, x = some a → y = some b → z = some c → R a b → R b c → R a c) :
    Option.Rel R x z := by
  cases hxy with
  | none =>
    cases hyz
    exact .none
  | some hab =>
    cases hyz with
    | some hbc => exact .some (comp _ _ _ rfl rfl rfl hab hbc)

/-- An option beside itself. -/
theorem rel_self_iff : Option.Rel R x x ↔ ∀ a, x = some a → R a a := by
  constructor
  · rintro h a rfl
    cases h with
    | some haa => exact haa
  · intro h
    cases x with
    | none => exact .none
    | some a => exact .some (h a rfl)

/-- Related options are there or missing together. -/
theorem rel_none_iff (h : Option.Rel R x y) : x = none ↔ y = none := by
  cases h with
  | none => exact Iff.rfl
  | some hab => exact iff_of_false nofun nofun

end Rel

namespace Value

variable {a b c v : Value} {i j : Identity}

/-- The values have the same content. -/
abbrev SameContent (a b : Value) : Prop :=
  sameContent a b = true

/-! ## Leaves -/

/-- Values that are no arrays and no objects are compared as by `===`. -/
theorem sameContent_eq_strictEq (ha : a.isContainer = false) (b : Value) :
    sameContent a b = strictEq a b := by
  cases a with
  | array => cases ha
  | object => cases ha
  | _ => cases b <;> rfl

/-- The same where the other value is no array and no object. -/
theorem sameContent_eq_strictEq_right (hb : b.isContainer = false) :
    sameContent a b = strictEq a b := by
  cases b with
  | array => cases hb
  | object => cases hb
  | _ => cases a <;> rfl

/-- Of values with the same content both are arrays or objects, or neither is. -/
theorem SameContent.isContainer_eq (h : SameContent a b) : a.isContainer = b.isContainer := by
  cases a with
  | array => cases b <;> first | rfl | cases h
  | object => cases b <;> first | rfl | cases h
  | _ => cases b <;> first | rfl | cases h

/-- `===` is transitive. -/
theorem strictEq_trans (hab : strictEq a b = true) (hbc : strictEq b c = true) :
    strictEq a c = true := by
  cases a with
  | undefined => cases b <;> first | exact hbc | cases hab
  | null => cases b <;> first | exact hbc | cases hab
  | bool x =>
    cases b with
    | bool y => cases c <;> first | exact PartialEquivBEq.trans hab hbc | cases hbc
    | _ => cases hab
  | number x =>
    cases b with
    | number y => cases c <;> first | exact PartialEquivBEq.trans hab hbc | cases hbc
    | _ => cases hab
  | string s =>
    cases b with
    | string t => cases c <;> first | exact PartialEquivBEq.trans hab hbc | cases hbc
    | _ => cases hab
  | array id slots =>
    cases b with
    | array =>
      rw [strictEq, decide_eq_true_eq] at hab
      cases c with
      | array =>
        rw [strictEq, hab]
        exact hbc
      | _ => cases hbc
    | _ => cases hab
  | object id entries =>
    cases b with
    | object =>
      rw [strictEq, decide_eq_true_eq] at hab
      cases c with
      | object =>
        rw [strictEq, hab]
        exact hbc
      | _ => cases hbc
    | _ => cases hab
  | function f =>
    cases b with
    | function g =>
      rw [strictEq, decide_eq_true_eq] at hab
      cases c with
      | function h =>
        rw [strictEq, hab]
        exact hbc
      | _ => cases hbc
    | _ => cases hab

/-! ## Arrays -/

theorem sameSlots_cons_iff {x y : Option Value} {as bs : List (Option Value)} :
    sameSlots (x :: as) (y :: bs) = true ↔
      Option.Rel SameContent x y ∧ sameSlots as bs = true := by
  cases x with
  | none =>
    cases y with
    | none => exact (and_iff_right .none).symm
    | some b => exact iff_of_false nofun fun h => nomatch h.1
  | some a =>
    cases y with
    | none => exact iff_of_false nofun fun h => nomatch h.1
    | some b =>
      rw [sameSlots, Bool.and_eq_true]
      exact and_congr_left fun _ => (Option.rel_some_some (r := SameContent)).symm

/-- Slots have the same content where they have it at every index, holes where there are holes. -/
theorem sameSlots_iff (as bs : List (Option Value)) : sameSlots as bs = true ↔
    ∀ i : Nat, Option.Rel (Option.Rel SameContent) as[i]? bs[i]? := by
  induction as generalizing bs with
  | nil =>
    cases bs with
    | nil => exact iff_of_true rfl fun _ => .none
    | cons y bs => exact iff_of_false nofun fun h => nomatch h 0
  | cons x as ih =>
    cases bs with
    | nil => exact iff_of_false (by cases x <;> exact nofun) fun h => nomatch h 0
    | cons y bs =>
      rw [sameSlots_cons_iff, ih bs]
      refine Iff.trans (and_congr_left fun _ => Option.rel_some_some.symm) ?_
      exact Nat.and_forall_add_one (p := fun n =>
        Option.Rel (Option.Rel SameContent) (x :: as)[n]? (y :: bs)[n]?)

/-- **Arrays have the same content where they have it at every index.** -/
theorem sameContent_array_iff {as bs : List (Option Value)} :
    SameContent (.array i as) (.array j bs) ↔
      ∀ n : Nat, Option.Rel (Option.Rel SameContent) as[n]? bs[n]? :=
  sameSlots_iff as bs

/-- Where one has a hole, the other has one. -/
theorem hole_iff {x y : Option (Option Value)} (h : Option.Rel (Option.Rel SameContent) x y) :
    x = some none ↔ y = some none := by
  cases h with
  | none => exact Iff.rfl
  | some h => rw [Option.some.injEq, Option.some.injEq, rel_none_iff h]

/-- Only an array has the content of an array. -/
theorem SameContent.exists_array {as : List (Option Value)} (h : SameContent (.array i as) b) :
    ∃ j bs, b = .array j bs := by
  cases b with
  | array j bs => exact ⟨j, bs, rfl⟩
  | _ => cases h

/-! ## Objects -/

/-- Entries are found among others with the same content. -/
theorem sameEntries_iff (as bs : List (String × Value)) : sameEntries as bs = true ↔
    ∀ key a, (key, a) ∈ as → ∃ b, bs.lookup key = some b ∧ SameContent a b := by
  induction as with
  | nil => exact iff_of_true rfl nofun
  | cons entry as ih =>
    obtain ⟨key, a⟩ := entry
    rw [sameEntries, Bool.and_eq_true, ih]
    constructor
    · rintro ⟨hhead, htail⟩ k c hmem
      rcases List.mem_cons.mp hmem with heq | hmem
      · obtain ⟨rfl, rfl⟩ := Prod.mk.inj heq
        cases hlookup : bs.lookup k with
        | none => simp [hlookup] at hhead
        | some b => exact ⟨b, rfl, by simpa [hlookup] using hhead⟩
      · exact htail k c hmem
    · intro h
      refine ⟨?_, fun k c hmem => h k c (List.mem_cons_of_mem _ hmem)⟩
      obtain ⟨b, hlookup, hab⟩ := h key a List.mem_cons_self
      rw [hlookup]
      exact hab

/-- **Objects have the same content where they have it under every key**, missing where it is
missing. -/
theorem sameContent_object_iff {as bs : List (String × Value)} (has : (Entries.keys as).Nodup)
    (hbs : (Entries.keys bs).Nodup) : SameContent (.object i as) (.object j bs) ↔
      ∀ key, Option.Rel SameContent (as.lookup key) (bs.lookup key) := by
  rw [SameContent, sameContent, Bool.and_eq_true, beq_iff_eq, sameEntries_iff]
  constructor
  · rintro ⟨hlength, hfound⟩ key
    -- All keys on the left are keys on the right, and these are no more.
    have hsubset : Entries.keys as ⊆ Entries.keys bs := by
      intro k hk
      obtain ⟨⟨_, a⟩, hmem, rfl⟩ := List.mem_map.mp hk
      obtain ⟨b, hlookup, -⟩ := hfound _ a hmem
      exact List.mem_map.mpr ⟨_, Entries.mem_of_lookup hlookup, rfl⟩
    have hperm : (Entries.keys as).Perm (Entries.keys bs) :=
      (has.subperm hsubset).perm_of_length_le (by simp [Entries.keys, hlength])
    cases hlookup : as.lookup key with
    | none =>
      have hmissing : key ∉ Entries.keys bs :=
        fun hmem => Entries.lookup_eq_none_iff.mp hlookup (hperm.mem_iff.mpr hmem)
      rw [Entries.lookup_eq_none_iff.mpr hmissing]
      exact .none
    | some a =>
      obtain ⟨b, hb, hab⟩ := hfound key a (Entries.mem_of_lookup hlookup)
      rw [hb]
      exact .some hab
  · intro h
    constructor
    · have hperm : (Entries.keys as).Perm (Entries.keys bs) := by
        refine (List.perm_ext_iff_of_nodup has hbs).mpr fun key => ?_
        rw [← not_iff_not, ← Entries.lookup_eq_none_iff, ← Entries.lookup_eq_none_iff]
        exact rel_none_iff (h key)
      simpa [Entries.keys] using hperm.length_eq
    · intro key a hmem
      have hkey := h key
      rw [(Entries.lookup_eq_some_iff has).mpr hmem] at hkey
      generalize bs.lookup key = y at hkey
      cases hkey with
      | some hab => exact ⟨_, rfl, hab⟩

/-- Only an object has the content of an object. -/
theorem SameContent.exists_object {as : List (String × Value)}
    (h : SameContent (.object i as) b) : ∃ j bs, b = .object j bs := by
  cases b with
  | object j bs => exact ⟨j, bs, rfl⟩
  | _ => cases h

/-! ## Symmetry and transitivity -/

/-- **Structural equality is symmetric.** -/
theorem SameContent.symm (ha : a.KeysDistinct) (hb : b.KeysDistinct) (h : SameContent a b) :
    SameContent b a := by
  induction a using Value.induction generalizing b with
  | leaf a hleaf =>
    have hleaf' : b.isContainer = false := h.isContainer_eq ▸ hleaf
    rw [SameContent, sameContent_eq_strictEq hleaf', strictEq_comm,
      ← sameContent_eq_strictEq hleaf]
    exact h
  | array id slots ih =>
    obtain ⟨j, bs, rfl⟩ := h.exists_array
    rw [sameContent_array_iff] at h ⊢
    refine fun n => rel_swap (h n) fun x y hx hy hxy => rel_swap hxy fun v w hv hw hvw => ?_
    subst hv hw
    exact ih v (List.mem_of_getElem? hx) (ha.slot (List.mem_of_getElem? hx))
      (hb.slot (List.mem_of_getElem? hy)) hvw
  | object id entries ih =>
    obtain ⟨j, bs, rfl⟩ := h.exists_object
    rw [sameContent_object_iff ha.self hb.self] at h
    rw [sameContent_object_iff hb.self ha.self]
    refine fun key => rel_swap (h key) fun v w hv hw hvw => ?_
    exact ih key v (Entries.mem_of_lookup hv) (ha.entry (Entries.mem_of_lookup hv))
      (hb.entry (Entries.mem_of_lookup hw)) hvw

theorem sameContent_comm (ha : a.KeysDistinct) (hb : b.KeysDistinct) :
    sameContent a b = sameContent b a :=
  Bool.eq_iff_iff.mpr ⟨SameContent.symm ha hb, SameContent.symm hb ha⟩

/-- **Structural equality is transitive.** -/
theorem SameContent.trans (ha : a.KeysDistinct) (hb : b.KeysDistinct) (hc : c.KeysDistinct)
    (hab : SameContent a b) (hbc : SameContent b c) : SameContent a c := by
  induction a using Value.induction generalizing b c with
  | leaf a hleaf =>
    have hleaf' : b.isContainer = false := hab.isContainer_eq ▸ hleaf
    rw [SameContent, sameContent_eq_strictEq hleaf] at hab ⊢
    rw [SameContent, sameContent_eq_strictEq hleaf'] at hbc
    exact strictEq_trans hab hbc
  | array id slots ih =>
    obtain ⟨j, bs, rfl⟩ := hab.exists_array
    obtain ⟨k, cs, rfl⟩ := hbc.exists_array
    rw [sameContent_array_iff] at hab hbc ⊢
    refine fun n => rel_comp (hab n) (hbc n) fun x y z hx hy hz hxy hyz =>
      rel_comp hxy hyz fun u v w hu hv hw huv hvw => ?_
    subst hu hv hw
    exact ih u (List.mem_of_getElem? hx) (ha.slot (List.mem_of_getElem? hx))
      (hb.slot (List.mem_of_getElem? hy)) (hc.slot (List.mem_of_getElem? hz)) huv hvw
  | object id entries ih =>
    obtain ⟨j, bs, rfl⟩ := hab.exists_object
    obtain ⟨k, cs, rfl⟩ := hbc.exists_object
    rw [sameContent_object_iff ha.self hb.self] at hab
    rw [sameContent_object_iff hb.self hc.self] at hbc
    rw [sameContent_object_iff ha.self hc.self]
    refine fun key => rel_comp (hab key) (hbc key) fun u v w hu hv hw huv hvw => ?_
    exact ih key u (Entries.mem_of_lookup hu) (ha.entry (Entries.mem_of_lookup hu))
      (hb.entry (Entries.mem_of_lookup hv)) (hc.entry (Entries.mem_of_lookup hw)) huv hvw

/-! ## Reflexivity -/

/-- A number is not NaN; of any other value nothing is asked. -/
def NotNaN : Value → Prop
  | .number x => x.isNaN = false
  | _ => True

/-- A leaf equals itself unless it is NaN. -/
theorem strictEq_self_iff (hv : v.isContainer = false) : strictEq v v = true ↔ NotNaN v := by
  cases v with
  | bool b => exact iff_of_true (beq_self_eq_true b) trivial
  | number x =>
    show (x == x) = true ↔ x.isNaN = false
    rw [Float.isNaN_eq_decide_eq_nan, decide_eq_false_iff_not, Float.beq_self_iff]
  | string s => exact iff_of_true (beq_self_eq_true s) trivial
  | array => cases hv
  | object => cases hv
  | function f => exact iff_of_true (decide_eq_true rfl) trivial
  | _ => exact iff_of_true rfl trivial

/-- **A value has its own content where no NaN is in it.** -/
theorem sameContent_self_iff (hv : v.KeysDistinct) : SameContent v v ↔ v.Everywhere NotNaN := by
  induction v using Value.induction with
  | leaf v hleaf =>
    rw [SameContent, sameContent_eq_strictEq hleaf, strictEq_self_iff hleaf, everywhere_leaf hleaf]
  | array id slots ih =>
    rw [sameContent_array_iff, everywhere_array]
    constructor
    · refine fun h => ⟨trivial, fun v hmem => ?_⟩
      obtain ⟨n, hn⟩ := List.mem_iff_getElem?.mp hmem
      exact (ih v hmem (hv.slot hmem)).mp (rel_self_iff.mp (rel_self_iff.mp (h n) _ hn) v rfl)
    · rintro ⟨-, h⟩ n
      refine rel_self_iff.mpr fun x hx => rel_self_iff.mpr ?_
      rintro v rfl
      have hmem := List.mem_of_getElem? hx
      exact (ih v hmem (hv.slot hmem)).mpr (h v hmem)
  | object id entries ih =>
    rw [sameContent_object_iff hv.self hv.self, everywhere_object]
    constructor
    · refine fun h => ⟨trivial, fun key v hmem => ?_⟩
      have hlookup := (Entries.lookup_eq_some_iff hv.self).mpr hmem
      exact (ih key v hmem (hv.entry hmem)).mp (rel_self_iff.mp (h key) v hlookup)
    · rintro ⟨-, h⟩ key
      refine rel_self_iff.mpr fun v hlookup => ?_
      have hmem := Entries.mem_of_lookup hlookup
      exact (ih key v hmem (hv.entry hmem)).mpr (h key v hmem)

/-! ## Order of keys -/

/-- The values differ in the order of keys of the objects that they contain, and in which arrays
and objects these are, but not in their content. -/
inductive Reordered : Value → Value → Prop
  | refl (v : Value) : Reordered v v
  | trans {u v w : Value} (huv : Reordered u v) (hvw : Reordered v w) : Reordered u w
  | array (id id' : Identity) (slots : List (Option Value)) :
      Reordered (.array id slots) (.array id' slots)
  | keys (id id' : Identity) {entries entries' : List (String × Value)}
      (h : entries.Perm entries') : Reordered (.object id entries) (.object id' entries')
  | slot (id : Identity) (before after : List (Option Value)) {v v' : Value}
      (h : Reordered v v') :
      Reordered (.array id (before ++ some v :: after)) (.array id (before ++ some v' :: after))
  | entry (id : Identity) (before after : List (String × Value)) (key : String) {v v' : Value}
      (h : Reordered v v') :
      Reordered (.object id (before ++ (key, v) :: after))
        (.object id (before ++ (key, v') :: after))

/-- What stands in a list with one item replaced is the new item, or stood there before. -/
theorem mem_of_mem_replaced {α : Type} {x x' y : α} {before after : List α}
    (h : y ∈ before ++ x' :: after) : y = x' ∨ y ∈ before ++ x :: after := by
  rcases List.mem_append.mp h with hbefore | hmem
  · exact .inr (List.mem_append_left _ hbefore)
  · exact (List.mem_cons.mp hmem).imp_right fun hafter =>
      List.mem_append_right _ (List.mem_cons_of_mem _ hafter)

/-- Reordered keys are still distinct. -/
theorem Reordered.keysDistinct {v' : Value} (h : Reordered v v') (hv : v.KeysDistinct) :
    v'.KeysDistinct := by
  induction h with
  | refl v => exact hv
  | trans huv hvw ihuv ihvw => exact ihvw (ihuv hv)
  | array => exact keysDistinct_array (everywhere_array.mp hv).2
  | keys id id' hperm =>
    obtain ⟨hkeys, hvalues⟩ := everywhere_object.mp hv
    refine everywhere_object.mpr ⟨?_, fun key v hmem => hvalues key v (hperm.mem_iff.mpr hmem)⟩
    exact (hperm.map Prod.fst).nodup_iff.mp hkeys
  | slot id before after h ih =>
    have hreplaced := ih (hv.slot (List.mem_append_right _ List.mem_cons_self))
    refine keysDistinct_array fun u hmem => ?_
    rcases mem_of_mem_replaced hmem with heq | hmem
    · exact Option.some.inj heq ▸ hreplaced
    · exact hv.slot hmem
  | entry id before after key h ih =>
    have hreplaced := ih (hv.entry (List.mem_append_right _ List.mem_cons_self))
    have hkeys : HasDistinctKeys (.object id _) := hv.self
    refine everywhere_object.mpr ⟨?_, fun k u hmem => ?_⟩
    · simpa [HasDistinctKeys, Entries.keys] using hkeys
    · rcases mem_of_mem_replaced hmem with heq | hmem
      · exact (Prod.mk.inj heq).2 ▸ hreplaced
      · exact hv.entry hmem

/-- A slot can be filled with a value that compares alike. -/
theorem sameSlots_replace {v v' : Value} (before after : List (Option Value))
    {bs : List (Option Value)} (h : ∀ w, some w ∈ bs → sameContent v w = sameContent v' w) :
    sameSlots (before ++ some v :: after) bs = sameSlots (before ++ some v' :: after) bs := by
  induction before generalizing bs with
  | nil =>
    cases bs with
    | nil => rfl
    | cons y bs =>
      cases y with
      | none => rfl
      | some w =>
        show (sameContent v w && _) = (sameContent v' w && _)
        rw [h w List.mem_cons_self]
  | cons x before ih =>
    cases bs with
    | nil => cases x <;> rfl
    | cons y bs =>
      have hrest := ih fun w hw => h w (List.mem_cons_of_mem _ hw)
      cases x with
      | none =>
        cases y with
        | none => exact hrest
        | some w => rfl
      | some u =>
        cases y with
        | none => rfl
        | some w => exact congrArg (sameContent u w && ·) hrest

/-- A key can be given a value that compares alike. -/
theorem sameEntries_replace {v v' : Value} {key : String} (before after : List (String × Value))
    {bs : List (String × Value)}
    (h : ∀ w, (key, w) ∈ bs → sameContent v w = sameContent v' w) :
    sameEntries (before ++ (key, v) :: after) bs =
      sameEntries (before ++ (key, v') :: after) bs := by
  induction before with
  | nil =>
    rw [List.nil_append, List.nil_append, sameEntries, sameEntries]
    cases hlookup : bs.lookup key with
    | none => rfl
    | some w =>
      dsimp only
      rw [h w (Entries.mem_of_lookup hlookup)]
  | cons entry before ih =>
    rw [List.cons_append, List.cons_append, sameEntries, sameEntries, ih]

/-- A value compares alike with its keys in another order. -/
theorem Reordered.sameContent_eq {v' : Value} (h : Reordered v v') (hv : v.KeysDistinct)
    {w : Value} (hw : w.KeysDistinct) : sameContent v w = sameContent v' w := by
  induction h generalizing w with
  | refl v => rfl
  | trans huv hvw ihuv ihvw => rw [ihuv hv hw, ihvw (huv.keysDistinct hv) hw]
  | array => cases w <;> rfl
  | keys id id' hperm =>
    cases w with
    | object j bs =>
      have hv' := (Reordered.keys id id' hperm).keysDistinct hv
      refine Bool.eq_iff_iff.mpr ((sameContent_object_iff hv.self hw.self).trans
        (Iff.trans ?_ (sameContent_object_iff hv'.self hw.self).symm))
      exact forall_congr' fun key => by rw [Entries.lookup_perm hperm hv.self key]
    | _ => rfl
  | slot id before after h ih =>
    cases w with
    | array j bs =>
      refine sameSlots_replace before after fun w hmem => ih ?_ (hw.slot hmem)
      exact hv.slot (List.mem_append_right _ List.mem_cons_self)
    | _ => rfl
  | entry id before after key h ih =>
    cases w with
    | object j bs =>
      have hentries := sameEntries_replace before after fun w (hmem : (key, w) ∈ bs) =>
        ih (hv.entry (List.mem_append_right _ List.mem_cons_self)) (hw.entry hmem)
      rw [sameContent, sameContent, hentries]
      simp only [List.length_append, List.length_cons]
    | _ => rfl

/-! ## One state of a program -/

/-- The identity of an array or an object. -/
def identity? : Value → Option Identity
  | .array id _ => some id
  | .object id _ => some id
  | _ => none

end Value

/-- What each identity stands for in one state of a program. -/
abbrev Heap := Identity → Value

/-- The value is one of the state: each array and object that it contains is the one that its
identity stands for. -/
def Heap.Has (heap : Heap) (v : Value) : Prop :=
  v.Everywhere fun w => ∀ id, w.identity? = some id → heap id = w

namespace Value

variable {a b : Value} {heap : Heap}

/-- Arrays and objects of one state that are strictly equal are one array or object. -/
theorem eq_of_strictEq (ha : heap.Has a) (hb : heap.Has b) (hleaf : a.isContainer = true)
    (h : strictEq a b = true) : a = b := by
  cases a with
  | array i as =>
    cases b with
    | array j bs =>
      obtain rfl : i = j := of_decide_eq_true h
      exact (ha.self i rfl).symm.trans (hb.self i rfl)
    | _ => cases h
  | object i as =>
    cases b with
    | object j bs =>
      obtain rfl : i = j := of_decide_eq_true h
      exact (ha.self i rfl).symm.trans (hb.self i rfl)
    | _ => cases h
  | _ => cases hleaf

/-- **In one state of a program strict equality is finer than structural equality**, except for
what contains a NaN. -/
theorem sameContent_of_strictEq (ha : heap.Has a) (hb : heap.Has b) (hkeys : a.KeysDistinct)
    (hnan : a.Everywhere NotNaN) (h : strictEq a b = true) : SameContent a b := by
  cases hleaf : a.isContainer with
  | false =>
    rw [SameContent, sameContent_eq_strictEq hleaf]
    exact h
  | true =>
    rw [← eq_of_strictEq ha hb hleaf h]
    exact (sameContent_self_iff hkeys).mpr hnan

end Value

open Value

/-- **Structural equality is a partial equivalence**, on values whose objects have each key once.
The order of keys does not count, a hole has its content at a hole only, and a value has its own
content exactly where it contains no NaN.  It is coarser than strict equality on the values of one
state that contain no NaN, and the same on everything but arrays and objects. -/
theorem sameContent_partial_equivalence :
    (∀ a b, KeysDistinct a → KeysDistinct b → sameContent a b = sameContent b a) ∧
    (∀ a b c, KeysDistinct a → KeysDistinct b → KeysDistinct c →
      sameContent a b = true → sameContent b c = true → sameContent a c = true) ∧
    (∀ a b a' b', KeysDistinct a → KeysDistinct b → Reordered a a' → Reordered b b' →
      sameContent a b = sameContent a' b') ∧
    (∀ i j as bs, sameContent (.array i as) (.array j bs) = true →
      ∀ n : Nat, as[n]? = some none ↔ bs[n]? = some none) ∧
    (∀ v, KeysDistinct v → (sameContent v v = true ↔ v.Everywhere NotNaN)) ∧
    (∀ heap : Heap, ∀ a b, heap.Has a → heap.Has b → KeysDistinct a → a.Everywhere NotNaN →
      strictEq a b = true → sameContent a b = true) ∧
    (∀ a b, a.isContainer = false ∨ b.isContainer = false →
      sameContent a b = strictEq a b) := by
  refine ⟨fun _ _ => sameContent_comm, fun _ _ _ => SameContent.trans, ?_, ?_,
    fun _ => sameContent_self_iff, fun _ _ _ => sameContent_of_strictEq, ?_⟩
  · intro a b a' b' ha hb ha' hb'
    calc sameContent a b
        = sameContent a' b := ha'.sameContent_eq ha hb
      _ = sameContent b a' := sameContent_comm (ha'.keysDistinct ha) hb
      _ = sameContent b' a' := hb'.sameContent_eq hb (ha'.keysDistinct ha)
      _ = sameContent a' b' := sameContent_comm (hb'.keysDistinct hb) (ha'.keysDistinct ha)
  · intro i j as bs h n
    exact hole_iff (sameContent_array_iff.mp h n)
  · rintro a b (ha | hb)
    · exact sameContent_eq_strictEq ha b
    · exact sameContent_eq_strictEq_right hb

/-- Two orders of the keys of one object, in a state that has both. -/
theorem sameContent_partial_equivalence_reordered :
    let slots : List (Option Value) := [some .undefined, none]
    let inner : Value := .array ⟨0, 0⟩ slots
    let a : Value := .object ⟨0, 1⟩ [("x", inner), ("y", .bool true)]
    let b : Value := .object ⟨0, 2⟩ [("y", .bool true), ("x", inner)]
    let heap : Heap := fun id => if id.index = 0 then inner else if id.index = 1 then a else b
    (KeysDistinct a ∧ KeysDistinct b ∧ Reordered a b) ∧
    (heap.Has a ∧ heap.Has b ∧ a.Everywhere NotNaN ∧ strictEq a a = true ∧
      strictEq a b = false) ∧
    sameContent a b = sameContent b a ∧ sameContent a a = true ∧
    sameContent a b = sameContent b b ∧ sameContent b b = true ∧
    (slots[1]? = some none ↔ slots[1]? = some none) ∧
    (sameContent b b = true ↔ b.Everywhere NotNaN) := by
  intro slots inner a b heap
  have hkeys : KeysDistinct a ∧ KeysDistinct b := by
    simp (disch := decide) [a, b, inner, slots, everywhere_object, everywhere_array,
      everywhere_leaf, or_imp, forall_and, HasDistinctKeys, Entries.keys]
  have hheap : heap.Has a ∧ heap.Has b := by
    simp (disch := decide) [Heap.Has, heap, a, b, inner, slots, everywhere_object, everywhere_array,
      everywhere_leaf, or_imp, forall_and, identity?]
  have hnan : a.Everywhere NotNaN := by
    simp (disch := decide) [a, inner, slots, everywhere_object, everywhere_array, everywhere_leaf,
      or_imp, forall_and, NotNaN]
  have hreordered : Reordered a b := .keys _ _ (.swap _ _ [])
  obtain ⟨hsymm, htrans, horder, hholes, hself, hstate, -⟩ := sameContent_partial_equivalence
  have hab : sameContent a b = true := by decide
  have hba : sameContent b a = true := by decide
  exact ⟨⟨hkeys.1, hkeys.2, hreordered⟩,
    ⟨hheap.1, hheap.2, hnan, rfl, rfl⟩,
    hsymm a b hkeys.1 hkeys.2, hstate heap a a hheap.1 hheap.1 hkeys.1 hnan rfl,
    horder a b b b hkeys.1 hkeys.2 hreordered (.refl b),
    htrans b a b hkeys.2 hkeys.1 hkeys.2 hba hab,
    hholes ⟨0, 0⟩ ⟨0, 0⟩ slots slots (by decide) 1, hself b hkeys.2⟩

end ExprSandbox
