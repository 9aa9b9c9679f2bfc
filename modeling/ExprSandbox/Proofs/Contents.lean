import Mathlib.Data.List.Nodup
import ExprSandbox.Value

/-!
# What values contain

Arrays and objects contain other values, and every property of all that is inside a value is said
through `Value.Contains`.  One such property is assumed of values throughout: an object has each
of its keys once (`Value.KeysDistinct`), which holds of all objects that are made by putting
entries in order (`Value.keysDistinct_ofEntries`).
-/

namespace ExprSandbox

/-- A fold that puts each item at the end, as long as the list that comes out has a property, gives
the items in order. -/
theorem foldl_eq_append {β : Type} {P : List β → Prop} {step : List β → β → List β}
    (hstep : ∀ acc b rest, P (acc ++ b :: rest) → step acc b = acc ++ [b]) (bs acc : List β)
    (h : P (acc ++ bs)) : bs.foldl step acc = acc ++ bs := by
  induction bs generalizing acc with
  | nil => exact (List.append_nil acc).symm
  | cons b rest ih =>
    have happend : acc ++ b :: rest = (acc ++ [b]) ++ rest := by
      rw [List.append_assoc, List.singleton_append]
    rw [List.foldl_cons, hstep acc b rest h, happend]
    exact ih _ (happend ▸ h)

/-! ## Entries -/

namespace Entries

variable {α β : Type} {entries : List (String × α)} {key : String} {a : α}

/-- What is found under a key stands there. -/
theorem mem_of_lookup (h : entries.lookup key = some a) : (key, a) ∈ entries := by
  obtain ⟨before, after, rfl, -⟩ := List.lookup_eq_some_iff.mp h
  exact List.mem_append_right _ List.mem_cons_self

/-- Nothing is found under what is no key. -/
theorem lookup_eq_none_iff : entries.lookup key = none ↔ key ∉ keys entries := by
  rw [List.lookup_eq_none_iff, keys, List.mem_map]
  constructor
  · rintro h ⟨entry, hentry, rfl⟩
    exact bne_iff_ne.mp (h entry hentry) rfl
  · intro h entry hentry
    exact bne_iff_ne.mpr fun heq => h ⟨entry, hentry, heq.symm⟩

/-- What is found stands first under the key or is found behind. -/
theorem lookup_cons (key k : String) (a : α) (rest : List (String × α)) :
    ((k, a) :: rest).lookup key = if key = k then some a else rest.lookup key := by
  rw [List.lookup_cons]
  by_cases h : key = k
  · rw [h, beq_self_eq_true, if_pos rfl]
  · rw [beq_eq_false_iff_ne.mpr h, if_neg h]

/-- Where every key stands once, what stands under a key is found. -/
theorem lookup_eq_some_iff (h : (keys entries).Nodup) :
    entries.lookup key = some a ↔ (key, a) ∈ entries := by
  refine ⟨mem_of_lookup, fun hmem => ?_⟩
  induction entries with
  | nil => cases hmem
  | cons entry rest ih =>
    obtain ⟨k, b⟩ := entry
    obtain ⟨hk, hnodup⟩ := List.nodup_cons.mp h
    rcases List.mem_cons.mp hmem with heq | hrest
    · cases heq
      rw [List.lookup_cons_self]
    · have hne : key ≠ k := by
        rintro rfl
        exact hk (List.mem_map.mpr ⟨_, hrest, rfl⟩)
      rw [lookup_cons, if_neg hne]
      exact ih hnodup hrest

/-- Where every key stands once, the order of the entries does not matter for what is found. -/
theorem lookup_perm {entries' : List (String × α)} (hperm : entries.Perm entries')
    (h : (keys entries).Nodup) (key : String) : entries.lookup key = entries'.lookup key := by
  have h' : (keys entries').Nodup := (hperm.map Prod.fst).nodup_iff.mp h
  refine Option.ext fun a => ?_
  rw [lookup_eq_some_iff h, lookup_eq_some_iff h', hperm.mem_iff]

/-- What is found among entries with other values. -/
theorem lookup_map (f : α → β) (entries : List (String × α)) (key : String) :
    (entries.map fun entry => (entry.1, f entry.2)).lookup key = (entries.lookup key).map f := by
  induction entries with
  | nil => rfl
  | cons entry rest ih =>
    rw [List.map_cons, lookup_cons, lookup_cons, ih]
    split <;> rfl

/-- Entries with other values have the same keys. -/
theorem keys_map (f : α → β) (entries : List (String × α)) :
    keys (entries.map fun entry => (entry.1, f entry.2)) = keys entries := by
  rw [keys, List.map_map]
  rfl

/-- Putting a value under a known key keeps the keys. -/
theorem keys_put_of_mem (h : key ∈ keys entries) : keys (put key a entries) = keys entries := by
  induction entries with
  | nil => cases h
  | cons entry rest ih =>
    rw [put]
    split
    · rfl
    · next hne =>
      have hrest : key ∈ keys rest := by
        rcases List.mem_cons.mp h with heq | hmem
        · exact absurd heq.symm hne
        · exact hmem
      exact congrArg (entry.1 :: ·) (ih hrest)

/-- Putting a value under a new key puts an entry at the end. -/
theorem put_of_not_mem (h : key ∉ keys entries) : put key a entries = entries ++ [(key, a)] := by
  induction entries with
  | nil => rfl
  | cons entry rest ih =>
    obtain ⟨hne, hrest⟩ := not_or.mp (mt List.mem_cons.mpr h)
    rw [put, if_neg (Ne.symm hne), ih hrest, List.cons_append]

/-- What stands among entries with a value put in is that value, or stood there before. -/
theorem mem_put {entry : String × α} (h : entry ∈ put key a entries) :
    entry = (key, a) ∨ entry ∈ entries := by
  induction entries with
  | nil => exact .inl (List.mem_singleton.mp h)
  | cons first rest ih =>
    rw [put] at h
    split at h
    · next heq =>
      rw [heq] at h
      exact (List.mem_cons.mp h).imp_right (List.mem_cons_of_mem _)
    · rcases List.mem_cons.mp h with rfl | hrest
      · exact .inr List.mem_cons_self
      · exact (ih hrest).imp_right (List.mem_cons_of_mem _)

/-- Putting a value keeps every key single. -/
theorem nodup_keys_put (h : (keys entries).Nodup) : (keys (put key a entries)).Nodup := by
  by_cases hmem : key ∈ keys entries
  · rw [keys_put_of_mem hmem]
    exact h
  · rw [put_of_not_mem hmem, keys, List.map_append]
    refine List.nodup_append.mpr ⟨h, List.nodup_singleton _, ?_⟩
    intro k hk l hl hkl
    rw [List.map_singleton, List.mem_singleton] at hl
    rw [hkl, hl] at hk
    exact hmem hk

/-- **Entries that are put in order have every key once.** -/
theorem nodup_keys_ofList (pairs : List (String × α)) : (keys (ofList pairs)).Nodup :=
  List.foldlRecOn (motive := fun entries => (keys entries).Nodup) pairs _ List.nodup_nil
    fun _ h _ _ => nodup_keys_put h

/-- Only pairs that are put stand among the entries. -/
theorem mem_of_mem_ofList {pairs : List (String × α)} :
    ∀ entry ∈ ofList pairs, entry ∈ pairs := by
  refine List.foldlRecOn (motive := fun entries => ∀ entry ∈ entries, entry ∈ pairs) pairs _ nofun
    fun entries ih pair hpair entry h => ?_
  rcases mem_put h with rfl | hmem
  · exact hpair
  · exact ih entry hmem

/-- Pairs with keys of which none is repeated are the entries that putting them gives. -/
theorem ofList_of_nodup {pairs : List (String × α)} (h : (keys pairs).Nodup) :
    ofList pairs = pairs := by
  refine foldl_eq_append (P := fun entries => (keys entries).Nodup)
    (fun entries pair rest hnodup => put_of_not_mem fun hmem => ?_) pairs [] h
  rw [keys, List.map_append, List.map_cons] at hnodup
  exact (List.nodup_append.mp hnodup).2.2 _ hmem _ List.mem_cons_self rfl

end Entries

/-! ## Contained values -/

namespace Value

/-- A value contains itself, and an array or an object contains what the values in its slots or
under its keys contain.  A function contains nothing else. -/
inductive Contains : Value → Value → Prop
  | self (v : Value) : Contains v v
  | slot {id : Identity} {slots : List (Option Value)} {v w : Value} (hv : some v ∈ slots)
      (h : Contains v w) : Contains (.array id slots) w
  | entry {id : Identity} {entries : List (String × Value)} {key : String} {v w : Value}
      (hv : (key, v) ∈ entries) (h : Contains v w) : Contains (.object id entries) w

/-- Whether a value is an array or an object. -/
def isContainer : Value → Bool
  | .array _ _ => true
  | .object _ _ => true
  | _ => false

/-- A property of values that holds of arrays and objects where it holds of what stands in
them. -/
@[elab_as_elim]
theorem induction {motive : Value → Prop} (leaf : ∀ v, v.isContainer = false → motive v)
    (array : ∀ id slots, (∀ v, some v ∈ slots → motive v) → motive (.array id slots))
    (object : ∀ id entries, (∀ key v, (key, v) ∈ entries → motive v) →
      motive (.object id entries)) : ∀ v, motive v
  | .array id slots => array id slots fun v hv =>
    have : sizeOf (some v) < sizeOf slots := List.sizeOf_lt_of_mem hv
    induction leaf array object v
  | .object id entries => object id entries fun key v hv =>
    have : sizeOf (key, v) < sizeOf entries := List.sizeOf_lt_of_mem hv
    induction leaf array object v
  | .undefined => leaf _ rfl
  | .null => leaf _ rfl
  | .bool _ => leaf _ rfl
  | .number _ => leaf _ rfl
  | .string _ => leaf _ rfl
  | .function _ => leaf _ rfl
termination_by v => sizeOf v
decreasing_by
  · rw [Option.some.sizeOf_spec] at this
    rw [Value.array.sizeOf_spec]
    omega
  · rw [Prod.mk.sizeOf_spec] at this
    rw [Value.object.sizeOf_spec]
    omega

/-! ## Properties of all contained values -/

/-- Whether a property holds of a value and of all that it contains. -/
def Everywhere (p : Value → Prop) (v : Value) : Prop :=
  ∀ w, v.Contains w → p w

section Everywhere

variable {p q : Value → Prop} {v : Value} {id : Identity} {slots : List (Option Value)}
  {entries : List (String × Value)}

/-- The property holds of the value itself. -/
theorem Everywhere.self (h : v.Everywhere p) : p v :=
  h v (.self v)

theorem everywhere_leaf (hv : v.isContainer = false) : v.Everywhere p ↔ p v := by
  refine ⟨Everywhere.self, fun h w hw => ?_⟩
  cases hw with
  | self => exact h
  | slot => cases hv
  | entry => cases hv

theorem everywhere_array : (Value.array id slots).Everywhere p ↔
    p (.array id slots) ∧ ∀ v, some v ∈ slots → v.Everywhere p := by
  refine ⟨fun h => ⟨h.self, fun v hv w hw => h w (.slot hv hw)⟩, fun h w hw => ?_⟩
  cases hw with
  | self => exact h.1
  | slot hv hw => exact h.2 _ hv w hw

theorem everywhere_object : (Value.object id entries).Everywhere p ↔
    p (.object id entries) ∧ ∀ key v, (key, v) ∈ entries → v.Everywhere p := by
  refine ⟨fun h => ⟨h.self, fun key v hv w hw => h w (.entry hv hw)⟩, fun h w hw => ?_⟩
  cases hw with
  | self => exact h.1
  | entry hv hw => exact h.2 _ _ hv w hw

/-- What stands in a slot has the property. -/
theorem Everywhere.slot (h : (Value.array id slots).Everywhere p) (hv : some v ∈ slots) :
    v.Everywhere p :=
  (everywhere_array.mp h).2 v hv

/-- What stands under a key has the property. -/
theorem Everywhere.entry {key : String} (h : (Value.object id entries).Everywhere p)
    (hv : (key, v) ∈ entries) : v.Everywhere p :=
  (everywhere_object.mp h).2 key v hv

end Everywhere

/-! ## Distinct keys -/

/-- An object has each of its keys once; of any other value nothing is asked. -/
def HasDistinctKeys : Value → Prop
  | .object _ entries => (Entries.keys entries).Nodup
  | _ => True

/-- Every object that the value contains has each of its keys once. -/
abbrev KeysDistinct (v : Value) : Prop :=
  v.Everywhere HasDistinctKeys

theorem keysDistinct_leaf {v : Value} (hv : v.isContainer = false) : v.KeysDistinct := by
  rw [KeysDistinct, everywhere_leaf hv]
  cases v with
  | object => cases hv
  | _ => trivial

theorem keysDistinct_array {id : Identity} {slots : List (Option Value)}
    (h : ∀ v, some v ∈ slots → v.KeysDistinct) : (Value.array id slots).KeysDistinct :=
  everywhere_array.mpr ⟨trivial, h⟩

/-- **Objects that are made have distinct keys.** -/
theorem keysDistinct_ofEntries (id : Identity) {pairs : List (String × Value)}
    (h : ∀ key v, (key, v) ∈ pairs → v.KeysDistinct) : (Value.ofEntries id pairs).KeysDistinct :=
  everywhere_object.mpr ⟨Entries.nodup_keys_ofList pairs,
    fun key v hmem => h key v (Entries.mem_of_mem_ofList _ hmem)⟩

end Value

end ExprSandbox
