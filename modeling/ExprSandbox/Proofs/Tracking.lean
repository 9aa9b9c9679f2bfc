import ExprSandbox.Proofs.Answers

/-!
# Readings that fail at the right token

A reading is followed along the tokens that it takes (`Tracks`), and three things are kept at once:
what it has taken when it fails can be gone on with; a failure that names a token does not depend
on what is behind that token; and a success depends on no more than one token behind those that
are taken.

The last one lets readings be put in sequence (`Tracks.andThen`): the first of two readings stays
what it is while the tokens of the second change.
-/

namespace ExprSandbox

/-- The token that an error names. -/
def ParseError.found? : ParseError → Option Found
  | .expected _ found => found
  | .incompleteExpression => none
  | .unexpectedToken token => some token
  | .tooDeep _ => none

namespace Parser

/-! ## One reading after the other -/

section Tracks

variable {α β : Type}

/-- What a reading does with the tokens `ts`, where `begun` tells which tokens it can go on
with. -/
inductive Tracks (read : List Token → Answer α) (begun : List Token → Prop) (ts : List Token) :
    Prop
  /-- It succeeds, and does so with any other tokens behind if the first of these is the same. -/
  | takes {us rest : List Token} {v : α} (split : ts = us ++ rest)
      (steady : ∀ rest', rest'.head? = rest.head? → read (us ++ rest') = .ok (v, rest'))
  /-- It wants more tokens. -/
  | ends {e : ParseError} (fails : read ts = .error e) (names : e.found? = none) (here : begun ts)
  /-- It names a token, and does so with any other tokens behind. -/
  | blames {us rest : List Token} {t : Token} {e : ParseError} (split : ts = us ++ t :: rest)
      (names : e.found? = some ⟨t.text, t.pos⟩) (here : begun us)
      (fails : ∀ rest', read (us ++ t :: rest') = .error e)
  /-- It passes a limit. -/
  | stops {n : Nat} (fails : read ts = .error (.tooDeep n))

variable {read read' : List Token → Answer α} {begun begun' : List Token → Prop}
variable {ts tail : List Token} {t : Token} {v : α}

/-- The first token is the same if that of what is behind is. -/
theorem head?_append_congr (us : List Token) {rest rest' : List Token}
    (h : rest'.head? = rest.head?) : (us ++ rest').head? = (us ++ rest).head? := by
  rw [List.head?_append, List.head?_append, h]

/-- Less may be asked of the tokens that were taken. -/
theorem Tracks.mono (h : Tracks read begun ts) (hle : ∀ us, begun us → begun' us) :
    Tracks read begun' ts := by
  cases h with
  | takes split steady => exact .takes split steady
  | ends fails names here => exact .ends fails names (hle _ here)
  | blames split names here fails => exact .blames split names (hle _ here) fails
  | stops fails => exact .stops fails

/-- **Tokens before a reading**, which it goes on from. -/
theorem Tracks.shift (us : List Token) {mid : List Token}
    (hread : ∀ ts', ts'.head? = mid.head? → read (us ++ ts') = read' ts')
    (h : Tracks read' (fun vs => begun (us ++ vs)) mid) : Tracks read begun (us ++ mid) := by
  cases h with
  | @takes vs rest v split steady =>
    subst split
    refine .takes (v := v) (List.append_assoc us vs rest).symm fun rest' hrest' => ?_
    rw [List.append_assoc, hread _ (head?_append_congr vs hrest')]
    exact steady rest' hrest'
  | ends fails names here =>
    refine .ends ?_ names here
    rw [hread _ rfl]
    exact fails
  | @blames vs rest t e split names here fails =>
    subst split
    refine .blames (List.append_assoc us vs (t :: rest)).symm names here fun rest' => ?_
    rw [List.append_assoc, hread (vs ++ t :: rest') (head?_append_congr vs rfl)]
    exact fails rest'
  | @stops n fails =>
    refine .stops (n := n) ?_
    rw [hread _ rfl]
    exact fails

/-- The same reading, described in another way. -/
theorem Tracks.congr (h : Tracks read' begun ts) (hread : ∀ ts, read ts = read' ts) :
    Tracks read begun ts :=
  funext hread ▸ h

/-- A reading that takes the first token and goes on. -/
theorem Tracks.cons (hread : ∀ tail, read (t :: tail) = read' tail)
    (h : Tracks read' (fun vs => begun (t :: vs)) tail) : Tracks read begun (t :: tail) :=
  .shift [t] (fun ts' _ => hread ts') h

/-- A reading that looks at the first token and goes on. -/
theorem Tracks.peek (hread : ∀ tail, read (t :: tail) = read' (t :: tail))
    (h : Tracks read' begun (t :: tail)) : Tracks read begun (t :: tail) := by
  refine .shift [] (fun ts' hhead => ?_) h
  obtain ⟨tail', rfl⟩ := List.head?_eq_some_iff.mp hhead
  exact hread tail'

/-- A reading that finds no token and goes on. -/
theorem Tracks.nil (hread : read [] = read' []) (h : Tracks read' begun []) :
    Tracks read begun [] := by
  refine .shift [] (fun ts' hhead => ?_) h
  obtain rfl := List.head?_eq_none_iff.mp hhead
  exact hread

/-- **One reading after another.**  The second one may count on what the first one has taken. -/
theorem Tracks.andThen (h : Tracks read begun ts) {k : α → List Token → Answer β}
    (hk : ∀ us v mid, ts = us ++ mid → read ts = .ok (v, mid) →
      Tracks (k v) (fun vs => begun (us ++ vs)) mid) :
    Tracks (fun ts => (read ts).andThen k) begun ts := by
  cases h with
  | @takes us mid v split steady =>
    subst split
    have hfirst := steady mid rfl
    -- the first reading takes the same tokens while what is behind begins with the same one
    refine .shift us (fun ts' hhead => ?_) (hk us v mid rfl hfirst)
    show (read (us ++ ts')).andThen k = k v ts'
    rw [steady ts' hhead]
    rfl
  | ends fails names here =>
    refine .ends ?_ names here
    rw [fails]
    rfl
  | blames split names here fails =>
    refine .blames split names here fun rest' => ?_
    rw [fails]
    rfl
  | @stops n fails =>
    refine .stops (n := n) ?_
    rw [fails]
    rfl

/-- A reading that takes nothing. -/
theorem tracks_ok : Tracks (fun ts => .ok (v, ts)) begun ts :=
  .takes (List.nil_append ts).symm fun _ _ => rfl

/-- A reading that takes the first token. -/
theorem tracks_take (hread : ∀ tail, read (t :: tail) = .ok (v, tail)) :
    Tracks read begun (t :: tail) :=
  .cons hread tracks_ok

/-- A reading that wants something else than it finds. -/
theorem tracks_expected (what : String) (here : begun []) :
    Tracks (fun ts => (.error (.expected what (found ts)) : Answer α)) begun ts := by
  cases ts with
  | nil => exact .ends rfl rfl here
  | cons t tail =>
    exact .blames (e := .expected what (some ⟨t.text, t.pos⟩)) (List.nil_append _).symm rfl here
      fun _ => rfl

/-- A reading that finds a token which it cannot take. -/
theorem tracks_unexpected
    (hread : ∀ tail, read (t :: tail) = .error (.unexpectedToken ⟨t.text, t.pos⟩))
    (here : begun []) : Tracks read begun (t :: tail) :=
  .blames (List.nil_append _).symm rfl here hread

/-- A reading that makes a node. -/
theorem Tracks.unlessHigh {limits : Limits} {e : Expression} (h : Tracks read begun ts) :
    Tracks (fun ts => unlessHigh limits e (read ts)) begun ts := by
  unfold Parser.unlessHigh
  split
  · exact .stops rfl
  · exact h

end Tracks

/-! ## Readers of one token -/

section Tokens

variable {begun : List Token → Prop} {ts us mid : List Token}

/-- A punctuation is asked for. -/
theorem tracks_expect (text : String) (here : begun []) :
    Tracks (fun ts => answer (expect text ts)) begun ts := by
  cases ts with
  | nil => exact .ends rfl rfl here
  | cons t tail =>
    by_cases ht : t.isPunctuation text = true
    · exact tracks_take fun tail => by rw [answer_expect, if_pos ht]
    · exact .peek (fun tail => by rw [answer_expect, if_neg ht]) (tracks_expected text here)

/-- The punctuation that was asked for. -/
theorem taken_expect {text : String} {u : Unit} (h : answer (expect text ts) = .ok (u, mid))
    (hts : ts = us ++ mid) : ∃ c, us = [c] ∧ c.isPunctuation text = true := by
  obtain ⟨c, rfl, hc⟩ := yields_expect.mp (answer_eq_ok.mp h)
  exact ⟨c, (List.append_cancel_right hts).symm, hc⟩

/-- The key of a property is asked for. -/
theorem tracks_propertyKey (here : begun []) :
    Tracks (fun ts => answer (propertyKey ts)) begun ts := by
  cases ts with
  | nil => exact .ends rfl rfl here
  | cons t tail =>
    by_cases hname : t.isName = true
    · exact tracks_take fun tail => by rw [answer_propertyKey, if_pos hname]
    · cases hkey : literalKey? t with
      | some key => exact tracks_take fun tail => by rw [answer_propertyKey, if_neg hname, hkey]
      | none =>
        exact .peek (fun tail => by rw [answer_propertyKey, if_neg hname, hkey])
          (tracks_expected "property key" here)

/-- The key that was read. -/
theorem taken_propertyKey {key : PropertyKey} (h : answer (propertyKey ts) = .ok (key, mid))
    (hts : ts = us ++ mid) : ∃ k, us = [k] ∧ DerivesKey k key := by
  obtain ⟨k, rfl, hk⟩ := yields_propertyKey.mp (answer_eq_ok.mp h)
  exact ⟨k, (List.append_cancel_right hts).symm, hk⟩

/-- The name after a dot is asked for. -/
theorem tracks_memberName (here : begun []) :
    Tracks (fun ts => answer (memberName ts)) begun ts := by
  cases ts with
  | nil => exact .ends rfl rfl here
  | cons t tail =>
    by_cases hname : t.isName = true
    · exact tracks_take fun tail => by rw [answer_memberName, if_pos hname]
    · exact .peek (fun tail => by rw [answer_memberName, if_neg hname])
        (tracks_expected "identifier" here)

/-- The name that was read. -/
theorem taken_memberName {name : String} (h : answer (memberName ts) = .ok (name, mid))
    (hts : ts = us ++ mid) : ∃ n, us = [n] ∧ n.isName = true ∧ name = n.text := by
  obtain ⟨n, rfl, hn⟩ := yields_memberName.mp (answer_eq_ok.mp h)
  exact ⟨n, (List.append_cancel_right hts).symm, hn⟩

end Tokens

end Parser

end ExprSandbox
