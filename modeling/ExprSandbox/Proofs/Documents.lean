import ExprSandbox.Proofs.StructuralEquality
import ExprSandbox.Proofs.WholeNumbers
import ExprSandbox.Value.Conversion

/-!
# Values through documents

A value that becomes a document and then a value again is the same but for what a document cannot
hold, which is `null` now (`documented`).  Documents of values are in a normal form, with safe
integers as integers and every other number as a float (`normal_toJson`), and a document in that
form comes back as it was (`toJson_ofJson`).  Of an object the document keeps the keys in their
order as texts, so the two directions are compared by what is found under each key.
-/

namespace ExprSandbox

/-! ## Members of a document -/

namespace Json

variable {members : List (String × Json)} {key k : String} {j : Json}

/-- The keys stand in increasing order, so that each one stands once. -/
abbrev Ascending (members : List (String × Json)) : Prop :=
  (Entries.keys members).Pairwise (· < ·)

theorem Ascending.nodup (h : Ascending members) : (Entries.keys members).Nodup :=
  h.imp ne_of_lt

/-- What stands in members with a new one is the new one, or stood there before. -/
theorem mem_insertMember {m : String × Json} (h : m ∈ insertMember key j members) :
    m = (key, j) ∨ m ∈ members := by
  induction members with
  | nil => exact .inl (List.mem_singleton.mp h)
  | cons first rest ih =>
    rw [insertMember] at h
    split at h
    · exact List.mem_cons.mp h
    split at h
    · exact (List.mem_cons.mp h).imp_right (List.mem_cons_of_mem _)
    · rcases List.mem_cons.mp h with rfl | hrest
      · exact .inr List.mem_cons_self
      · exact (ih hrest).imp_right (List.mem_cons_of_mem _)

/-- What is found after a member was put in its place. -/
theorem lookup_insertMember :
    (insertMember key j members).lookup k = if k = key then some j else members.lookup k := by
  induction members with
  | nil => exact Entries.lookup_cons k key j []
  | cons first rest ih =>
    obtain ⟨l, i⟩ := first
    rw [insertMember]
    split
    · exact Entries.lookup_cons k key j _
    split
    · next heq =>
      rw [← heq, Entries.lookup_cons, Entries.lookup_cons]
      split_ifs <;> rfl
    · next hne =>
      rw [Entries.lookup_cons, Entries.lookup_cons, ih]
      split_ifs with hl hkey
      · exact absurd (hkey.symm.trans hl) hne
      all_goals rfl

/-- A member is put in its place. -/
theorem ascending_insertMember (h : Ascending members) :
    Ascending (insertMember key j members) := by
  induction members with
  | nil => exact List.pairwise_singleton _ _
  | cons first rest ih =>
    obtain ⟨hfirst, hrest⟩ := List.pairwise_cons.mp h
    rw [insertMember]
    split
    · next hlt =>
      refine List.pairwise_cons.mpr ⟨fun k hk => ?_, h⟩
      rcases List.mem_cons.mp hk with rfl | hk
      · exact hlt
      · exact lt_trans hlt (hfirst k hk)
    split
    · next heq =>
      subst heq
      exact h
    · next hlt hne =>
      refine List.pairwise_cons.mpr ⟨fun k hk => ?_, ih hrest⟩
      obtain ⟨m, hm, rfl⟩ := List.mem_map.mp hk
      rcases mem_insertMember hm with rfl | hm
      · exact lt_of_le_of_ne (not_lt.mp hlt) (Ne.symm hne)
      · exact hfirst _ (List.mem_map.mpr ⟨m, hm, rfl⟩)

/-- A member behind all others is put at the end. -/
theorem insertMember_of_lt (h : ∀ k ∈ Entries.keys members, k < key) :
    insertMember key j members = members ++ [(key, j)] := by
  induction members with
  | nil => rfl
  | cons first rest ih =>
    obtain ⟨hfirst, hrest⟩ := List.forall_mem_cons.mp h
    rw [insertMember, if_neg (lt_asymm hfirst), if_neg (ne_of_gt hfirst), ih hrest,
      List.cons_append]

/-- The members of the object that has the given members. -/
def sorted (members : List (String × Json)) : List (String × Json) :=
  members.foldl (fun sorted m => insertMember m.1 m.2 sorted) []

/-- The keys of an object are in order. -/
theorem ascending_sorted (members : List (String × Json)) : Ascending (sorted members) :=
  List.foldlRecOn (motive := Ascending) members _ .nil fun _ h _ _ => ascending_insertMember h

/-- An object has no members but the given ones. -/
theorem mem_of_mem_sorted : ∀ m ∈ sorted members, m ∈ members := by
  refine List.foldlRecOn (motive := fun acc => ∀ m ∈ acc, m ∈ members) members _ nofun
    fun acc ih m hm i hi => ?_
  rcases mem_insertMember hi with rfl | hmem
  · exact hm
  · exact ih i hmem

/-- Of given members with distinct keys each is found in the object. -/
theorem lookup_sorted (h : (Entries.keys members).Nodup) (key : String) :
    (sorted members).lookup key = members.lookup key := by
  suffices hfoldl : ∀ acc : List (String × Json),
      (members.foldl (fun sorted m => insertMember m.1 m.2 sorted) acc).lookup key =
        (members.lookup key).or (acc.lookup key) by
    exact (hfoldl []).trans (Option.or_none)
  induction members with
  | nil => exact fun _ => rfl
  | cons first rest ih =>
    intro acc
    obtain ⟨k, j⟩ := first
    obtain ⟨hk, hrest⟩ := List.nodup_cons.mp h
    rw [List.foldl_cons, ih hrest, lookup_insertMember, Entries.lookup_cons]
    split_ifs with heq
    · rw [heq, Entries.lookup_eq_none_iff.mpr hk]
      rfl
    · rfl

/-- Members in order are those of the object. -/
theorem sorted_of_ascending (h : Ascending members) : sorted members = members := by
  refine foldl_eq_append (P := Ascending)
    (fun acc m rest hall => insertMember_of_lt fun k hk => ?_) members [] h
  rw [Ascending, Entries.keys, List.map_append, List.map_cons] at hall
  exact (List.pairwise_append.mp hall).2.2 k hk _ List.mem_cons_self

/-! ## Documents in normal form -/

/-- The document has safe integers as integers and floats with a property besides, and the keys of
its objects are in order. -/
inductive Normal (p : Float → Prop) : Json → Prop
  | null : Normal p .null
  | bool (b : Bool) : Normal p (.bool b)
  | integer {n : Int} (h : n.natAbs ≤ Number.maxSafe) : Normal p (.integer n)
  | float {x : Float} (h : p x) : Normal p (.float x)
  | string (s : String) : Normal p (.string s)
  | array {items : List Json} (h : ∀ j ∈ items, Normal p j) : Normal p (.array items)
  | object {members : List (String × Json)} (hkeys : Ascending members)
      (h : ∀ key j, (key, j) ∈ members → Normal p j) : Normal p (.object members)

theorem Normal.imp {p q : Float → Prop} (h : Normal p j) (hpq : ∀ x, p x → q x) : Normal q j := by
  induction h with
  | null => exact .null
  | bool b => exact .bool b
  | integer h => exact .integer h
  | float h => exact .float (hpq _ h)
  | string s => exact .string s
  | array h ih => exact .array ih
  | object hkeys h ih => exact .object hkeys ih

end Json

namespace Value

open Json (Ascending Normal sorted)
open Number (whole? safeWhole?)

/-! ## To documents -/

/-- The document of what stands in a slot; a hole has that of nothing. -/
def slotToJson (slot : Option Value) : Json :=
  slot.elim .null toJson

theorem slotsToJson_eq (slots : List (Option Value)) :
    slotsToJson slots = slots.map slotToJson := by
  induction slots with
  | nil => rfl
  | cons slot rest ih =>
    cases slot with
    | none => exact congrArg (Json.null :: ·) ih
    | some v => exact congrArg (v.toJson :: ·) ih

theorem entriesToJson_eq (entries : List (String × Value)) :
    entriesToJson entries = entries.map fun entry => (entry.1, entry.2.toJson) := by
  induction entries with
  | nil => rfl
  | cons entry rest ih => exact congrArg ((entry.1, entry.2.toJson) :: ·) ih

/-- The property of the floats that stand in documents of values: the others are safe integers, or
nothing. -/
def WrittenAsFloat (x : Float) : Prop :=
  x.isFinite = true ∧ safeWhole? x = none

/-- The document of a number that is written as a float. -/
theorem numberToJson_float {x : Float} (h : WrittenAsFloat x) : numberToJson x = .float x := by
  rw [numberToJson, h.2]
  exact if_pos h.1

/-- The document of a safe integer. -/
theorem numberToJson_integer {n : Int} (h : n.natAbs ≤ Number.maxSafe) :
    numberToJson (Number.ofInt n) = .integer n := by
  rw [numberToJson, Number.safeWhole?_ofInt h]

/-- What the document of a number is. -/
theorem numberToJson_cases (x : Float) :
    (∃ n, whole? x = some n ∧ n.natAbs ≤ Number.maxSafe ∧ numberToJson x = .integer n) ∨
      (WrittenAsFloat x ∧ numberToJson x = .float x) ∨
      (x.isFinite = false ∧ numberToJson x = .null) := by
  cases hwhole : safeWhole? x with
  | some n =>
    obtain ⟨hn, hsafe⟩ := Option.filter_eq_some_iff.mp hwhole
    exact .inl ⟨n, hn, of_decide_eq_true hsafe, by rw [numberToJson, hwhole]⟩
  | none =>
    cases hfinite : x.isFinite with
    | true => exact .inr (.inl ⟨⟨hfinite, hwhole⟩, numberToJson_float ⟨hfinite, hwhole⟩⟩)
    | false =>
      refine .inr (.inr ⟨rfl, ?_⟩)
      rw [numberToJson, hwhole]
      exact if_neg (ne_true_of_eq_false hfinite)

/-- **The document of a value is in normal form.** -/
theorem normal_toJson (v : Value) : Normal WrittenAsFloat v.toJson := by
  induction v using Value.induction with
  | leaf v hleaf =>
    cases v with
    | undefined => exact .null
    | null => exact .null
    | bool b => exact .bool b
    | number x =>
      rw [toJson]
      rcases numberToJson_cases x with ⟨n, -, hsafe, hn⟩ | ⟨hx, hfloat⟩ | ⟨-, hnull⟩
      · exact hn ▸ .integer hsafe
      · exact hfloat ▸ .float hx
      · exact hnull ▸ .null
    | string s => exact .string s
    | function f => exact .null
    | array => cases hleaf
    | object => cases hleaf
  | array id slots ih =>
    refine .array fun j hj => ?_
    rw [slotsToJson_eq] at hj
    obtain ⟨slot, hslot, rfl⟩ := List.mem_map.mp hj
    cases slot with
    | none => exact .null
    | some v => exact ih v hslot
  | object id entries ih =>
    refine .object (Json.ascending_sorted _) fun key j hj => ?_
    have hmem := Json.mem_of_mem_sorted _ hj
    rw [entriesToJson_eq] at hmem
    obtain ⟨entry, hentry, heq⟩ := List.mem_map.mp hmem
    cases heq
    exact ih _ _ hentry

/-! ## From documents -/

section FromDocuments

variable (run : Nat)

/-- The keys of an object are the keys of its document. -/
theorem keys_membersOfJson (members : List (String × Json)) (made : Nat) :
    Entries.keys (membersOfJson run members made).1 = Entries.keys members := by
  induction members generalizing made with
  | nil => rfl
  | cons m rest ih => exact congrArg (m.1 :: ·) (ih _)

/-- What is found under a key of an object is the value of what is found in its document. -/
theorem lookup_membersOfJson (members : List (String × Json)) (made : Nat) (key : String) :
    ∃ made', (membersOfJson run members made).1.lookup key =
      (members.lookup key).map fun j => (ofJson run j made').1 := by
  induction members generalizing made with
  | nil => exact ⟨made, rfl⟩
  | cons m rest ih =>
    obtain ⟨k, j⟩ := m
    by_cases h : key = k
    · refine ⟨made, ?_⟩
      rw [membersOfJson, Entries.lookup_cons, if_pos h, Entries.lookup_cons, if_pos h]
      rfl
    · obtain ⟨made', hrest⟩ := ih (ofJson run j made).2
      refine ⟨made', ?_⟩
      rw [membersOfJson, Entries.lookup_cons, if_neg h, Entries.lookup_cons, if_neg h]
      exact hrest

/-- The entries of the object of a document with its keys in order. -/
theorem ofEntries_membersOfJson {members : List (String × Json)} (h : Ascending members)
    (id : Identity) (made : Nat) : Value.ofEntries id (membersOfJson run members made).1 =
      .object id (membersOfJson run members made).1 := by
  rw [Value.ofEntries, Entries.ofList_of_nodup]
  rw [keys_membersOfJson]
  exact h.nodup

/-- Documents that come back from their values do so as items of an array. -/
theorem slotsToJson_itemsOfJson {items : List Json}
    (h : ∀ j ∈ items, ∀ made, toJson (ofJson run j made).1 = j) (made : Nat) :
    slotsToJson ((itemsOfJson run items made).1.map some) = items := by
  induction items generalizing made with
  | nil => rfl
  | cons j rest ih =>
    obtain ⟨hfirst, hrest⟩ := List.forall_mem_cons.mp h
    exact congrArg₂ List.cons (hfirst made) (ih hrest _)

/-- Documents that come back from their values do so as members of an object. -/
theorem entriesToJson_membersOfJson {members : List (String × Json)}
    (h : ∀ m ∈ members, ∀ made, toJson (ofJson run m.2 made).1 = m.2) (made : Nat) :
    entriesToJson (membersOfJson run members made).1 = members := by
  induction members generalizing made with
  | nil => rfl
  | cons m rest ih =>
    obtain ⟨hfirst, hrest⟩ := List.forall_mem_cons.mp h
    exact congrArg₂ List.cons (congrArg (m.1, ·) (hfirst made)) (ih hrest _)

/-- **A document in normal form comes back from its value.** -/
theorem toJson_ofJson {j : Json} (h : Normal WrittenAsFloat j) (made : Nat) :
    toJson (ofJson run j made).1 = j := by
  induction h generalizing made with
  | null => rfl
  | bool b => rfl
  | integer h => exact numberToJson_integer h
  | float h => exact numberToJson_float h
  | string s => rfl
  | array h ih => exact congrArg Json.array (slotsToJson_itemsOfJson run ih made)
  | object hkeys h ih =>
    have hmembers := entriesToJson_membersOfJson run (fun m hm => ih m.1 m.2 hm) made
    rw [ofJson]
    dsimp only
    rw [ofEntries_membersOfJson run hkeys, toJson, hmembers]
    exact congrArg Json.object (Json.sorted_of_ascending hkeys)

end FromDocuments

/-! ## What a document holds of a value -/

mutual
/-- The value with `null` in place of all that a document cannot hold: holes, `undefined`,
functions and numbers that are not finite. -/
def documented : Value → Value
  | .undefined => .null
  | .null => .null
  | .bool b => .bool b
  | .number x => if x.isFinite then .number x else .null
  | .string s => .string s
  | .array id slots => .array id (documentedSlots slots)
  | .object id entries => .object id (documentedEntries entries)
  | .function _ => .null

/-- The slots with what a document holds of them. -/
def documentedSlots : List (Option Value) → List (Option Value)
  | [] => []
  | none :: rest => some .null :: documentedSlots rest
  | some v :: rest => some v.documented :: documentedSlots rest

/-- The entries with what a document holds of them. -/
def documentedEntries : List (String × Value) → List (String × Value)
  | [] => []
  | (key, v) :: rest => (key, v.documented) :: documentedEntries rest
end

theorem documentedEntries_eq (entries : List (String × Value)) :
    documentedEntries entries = entries.map fun entry => (entry.1, entry.2.documented) := by
  induction entries with
  | nil => rfl
  | cons entry rest ih => exact congrArg ((entry.1, entry.2.documented) :: ·) ih

/-- A document can hold the value, as far as it is not in what the value contains. -/
def HasDocument : Value → Prop
  | .undefined => False
  | .number x => x.isFinite = true
  | .array _ slots => none ∉ slots
  | .function _ => False
  | _ => True

/-- Nothing is replaced in slots without holes of whose values nothing is replaced. -/
theorem documentedSlots_eq_self {slots : List (Option Value)} (hholes : none ∉ slots)
    (h : ∀ v, some v ∈ slots → v.documented = v) : documentedSlots slots = slots := by
  induction slots with
  | nil => rfl
  | cons slot rest ih =>
    have hrest := ih (fun hmem => hholes (List.mem_cons_of_mem _ hmem))
      fun v hv => h v (List.mem_cons_of_mem _ hv)
    cases slot with
    | none => exact absurd List.mem_cons_self hholes
    | some v => exact congrArg₂ List.cons (congrArg some (h v List.mem_cons_self)) hrest

/-- A value that a document can hold is not changed. -/
theorem documented_eq_self {v : Value} (h : v.Everywhere HasDocument) : v.documented = v := by
  induction v using Value.induction with
  | leaf v hleaf =>
    have hself := h.self
    cases v with
    | undefined => cases hself
    | number x => exact if_pos hself
    | function f => cases hself
    | array => cases hleaf
    | object => cases hleaf
    | _ => rfl
  | array i slots ih =>
    have hslots := documentedSlots_eq_self h.self fun v hv => ih v hv (h.slot hv)
    exact congrArg (Value.array i) hslots
  | object i entries ih =>
    refine congrArg (Value.object i) ?_
    rw [documentedEntries_eq]
    calc entries.map (fun entry => (entry.1, entry.2.documented))
        = entries.map id := List.map_congr_left fun entry hentry =>
          Prod.ext rfl (ih entry.1 entry.2 hentry (h.entry hentry))
      _ = entries := List.map_id entries

/-! ## Values that come back -/

section ComesBack

variable (run : Nat)

/-- A finite number comes back from its document, where both zeros count as one number. -/
theorem sameContent_ofJson_numberToJson (x : Float) (made : Nat) :
    SameContent (ofJson run (numberToJson x) made).1 (documented (.number x)) := by
  rw [documented]
  rcases numberToJson_cases x with ⟨n, hwhole, -, hn⟩ | ⟨⟨hfinite, -⟩, hfloat⟩ | ⟨hinfinite, hnull⟩
  · rw [hn, if_pos (Number.isFinite_of_whole? hwhole)]
    exact Number.ofInt_beq hwhole
  · rw [hfloat, if_pos hfinite]
    exact Number.beq_self (Number.isNaN_of_isFinite hfinite)
  · rw [hnull, hinfinite]
    rfl

/-- Values that come back from their documents do so as slots of an array. -/
theorem sameSlots_documentedSlots {slots : List (Option Value)}
    (h : ∀ v, some v ∈ slots → ∀ made, SameContent (ofJson run v.toJson made).1 v.documented)
    (made : Nat) :
    sameSlots ((itemsOfJson run (slotsToJson slots) made).1.map some) (documentedSlots slots) =
      true := by
  induction slots generalizing made with
  | nil => rfl
  | cons slot rest ih =>
    have hrest := ih fun v hv => h v (List.mem_cons_of_mem _ hv)
    cases slot with
    | none => exact sameSlots_cons_iff.mpr ⟨.some rfl, hrest _⟩
    | some v => exact sameSlots_cons_iff.mpr ⟨.some (h v List.mem_cons_self made), hrest _⟩

/-- **A value comes back from its document but for what the document cannot hold.** -/
theorem sameContent_ofJson_toJson {v : Value} (hv : v.KeysDistinct) (made : Nat) :
    SameContent (ofJson run v.toJson made).1 v.documented := by
  induction v using Value.induction generalizing made with
  | leaf v hleaf =>
    cases v with
    | bool b => exact beq_self_eq_true b
    | number x => exact sameContent_ofJson_numberToJson run x made
    | string s => exact beq_self_eq_true s
    | array => cases hleaf
    | object => cases hleaf
    | _ => rfl
  | array id slots ih =>
    exact sameSlots_documentedSlots run (fun v hmem => ih v hmem (hv.slot hmem)) made
  | object id entries ih =>
    have hkeys : (Entries.keys (entriesToJson entries)).Nodup := by
      rw [entriesToJson_eq, Entries.keys_map]
      exact hv.self
    have hdocumented : (Entries.keys (documentedEntries entries)).Nodup := by
      rw [documentedEntries_eq, Entries.keys_map]
      exact hv.self
    have hsorted := Json.ascending_sorted (entriesToJson entries)
    show SameContent (.ofEntries _ (membersOfJson run (sorted (entriesToJson entries)) made).1)
      (.object id (documentedEntries entries))
    rw [ofEntries_membersOfJson run hsorted]
    refine (sameContent_object_iff ?_ hdocumented).mpr fun key => ?_
    · rw [keys_membersOfJson]
      exact hsorted.nodup
    · -- Whatever order the keys have now, the same is found under each of them.
      obtain ⟨made', hfound⟩ := lookup_membersOfJson run (sorted (entriesToJson entries)) made key
      rw [hfound, Json.lookup_sorted hkeys, entriesToJson_eq, documentedEntries_eq,
        Entries.lookup_map, Entries.lookup_map]
      cases hlookup : entries.lookup key with
      | none => exact .none
      | some v =>
        have hmem := Entries.mem_of_lookup hlookup
        exact .some (ih key v hmem (hv.entry hmem) made')

end ComesBack

end Value

open Value

/-- **Conversion to a document is a normalisation.**  A value comes back from its document with
`null` in place of all that the document cannot hold, so that a value without any of this comes
back with the same content, and each value has the document of what comes back.  A document whose
numbers are safe integers, written as integers, and other finite floats, which are not whole, is
the document of its value. -/
theorem toJson_normalisation (run made : Nat) :
    (∀ v, KeysDistinct v → sameContent (ofJson run v.toJson made).1 v.documented = true) ∧
    (∀ v, KeysDistinct v → v.Everywhere HasDocument →
      sameContent (ofJson run v.toJson made).1 v = true) ∧
    (∀ v, toJson (ofJson run (toJson v) made).1 = v.toJson) ∧
    (∀ j, Json.Normal (fun x => x.isFinite = true ∧ Number.whole? x = none) j →
      toJson (ofJson run j made).1 = j) := by
  refine ⟨fun v hv => sameContent_ofJson_toJson run hv made, fun v hv hdocument => ?_,
    fun v => toJson_ofJson run (normal_toJson v) made, fun j hj => toJson_ofJson run ?_ made⟩
  · have hsame := sameContent_ofJson_toJson run hv made
    rwa [documented_eq_self hdocument] at hsame
  · refine hj.imp fun x ⟨hfinite, hwhole⟩ => ⟨hfinite, ?_⟩
    rw [Number.safeWhole?, hwhole]
    rfl

/-- An object with its keys out of order whose array has a hole, a NaN and a function, one whose
number is the negative zero, and a document with a number of each form. -/
theorem toJson_normalisation_mixed :
    let slots : List (Option Value) := [none, some (.number Number.nan), some (.function default)]
    let v : Value := .object ⟨0, 1⟩ [("b", .array ⟨0, 0⟩ slots), ("a", .undefined)]
    let w : Value := .object ⟨0, 2⟩ [("d", .number (-Number.zero)), ("c", .string "text")]
    let j : Json := .object [("a", .float 0.5), ("b", .array [.integer 2, .null])]
    (KeysDistinct v ∧ sameContent (ofJson 1 v.toJson 0).1 v.documented = true) ∧
    (KeysDistinct w ∧ w.Everywhere HasDocument ∧
      sameContent (ofJson 1 w.toJson 0).1 w = true) ∧
    toJson (ofJson 1 v.toJson 0).1 = v.toJson ∧
    (Json.Normal (fun x => x.isFinite = true ∧ Number.whole? x = none) j ∧
      toJson (ofJson 1 j 0).1 = j) := by
  intro slots v w j
  have hkeys : KeysDistinct v ∧ KeysDistinct w := by
    simp (disch := decide) [v, w, slots, everywhere_object, everywhere_array, everywhere_leaf,
      or_imp, forall_and, HasDistinctKeys, Entries.keys]
  have hdocument : w.Everywhere HasDocument := by
    have hfinite : (-Number.zero).isFinite = true := by decide
    simp (disch := decide) [w, everywhere_object, everywhere_leaf, or_imp, forall_and,
      HasDocument, hfinite]
  have hnormal : Json.Normal (fun x => x.isFinite = true ∧ Number.whole? x = none) j := by
    refine .object (by decide) fun key i hi => ?_
    simp only [List.mem_cons, Prod.mk.injEq, List.not_mem_nil, or_false] at hi
    rcases hi with ⟨-, rfl⟩ | ⟨-, rfl⟩
    · exact .float (by decide)
    · exact .array (List.forall_mem_cons.mpr
        ⟨.integer (by decide), List.forall_mem_singleton.mpr .null⟩)
  obtain ⟨hnormalised, hsame, htwice, hback⟩ := toJson_normalisation 1 0
  exact ⟨⟨hkeys.1, hnormalised v hkeys.1⟩, ⟨hkeys.2, hdocument, hsame w hkeys.2 hdocument⟩,
    htwice v, hnormal, hback j hnormal⟩

end ExprSandbox
