import TableAppend.Proofs.Json.Numbers

/-!
# Reading written documents

A document whose strings are texts and whose numbers are natural is read from its compact text as it was
written.  Each part of the text moves the reader from a state that awaits a value to the one in which
this value is complete, whatever follows the part, so that parts are read one after another.
-/

namespace TableAppend.Json

/-- Every string is a text and every number a natural one. -/
inductive IsPlain : Json → Prop
  | null : IsPlain .null
  | bool (value : Bool) : IsPlain (.bool value)
  | nat (n : ℕ) : IsPlain (.nat n)
  | text (value : String) : IsPlain (.text value)
  | array {items : List Json} (hitems : ∀ item ∈ items, IsPlain item) : IsPlain (.array items)
  | record {members : List (String × Json)} (hmembers : ∀ member ∈ members, IsPlain member.2) :
      IsPlain (.record members)

theorem IsPlain.texts (values : List String) : (Json.texts values).IsPlain := by
  refine .array fun item hitem => ?_
  obtain ⟨value, -, rfl⟩ := List.mem_map.mp hitem
  exact .text value

theorem IsPlain.optional {α : Type} {write : α → Json} (hwrite : ∀ value, (write value).IsPlain)
    (value : Option α) : (Json.optional write value).IsPlain := by
  cases value with
  | none => exact .null
  | some value => exact hwrite value

/-! ## Words -/

namespace Token

theorem start?_of_isLower {c : Char} (hlower : c.isLower = true) :
    start? c = some ([], .word [c]) := by
  have hspace : ¬ isSpace c = true := by
    simp only [isSpace, Bool.or_eq_true, decide_eq_true_eq]
    rintro (((rfl | rfl) | rfl) | rfl) <;> exact absurd hlower (by decide)
  have hquote : c ≠ '"' := by
    rintro rfl
    exact absurd hlower (by decide)
  rw [start?, if_neg hspace, if_neg hquote, if_pos hlower]

theorem scan?_letters {letters : List Char} (hlower : ∀ c ∈ letters, c.isLower = true)
    (read rest : List Char) :
    scan? (.word read) (letters ++ rest) = scan? (.word (letters.reverse ++ read)) rest := by
  induction letters generalizing read with
  | nil => rfl
  | cons c letters ih =>
    have hstep : step? (.word read) c = some ([], .word (c :: read)) := by
      rw [step?.eq_2, if_pos (hlower c List.mem_cons_self)]
    rw [List.cons_append, scan?_cons_inside hstep,
      ih fun d hd => hlower d (List.mem_cons_of_mem _ hd), List.reverse_cons, List.append_assoc]
    rfl

/-- A word is one token, which the mark after it ends. -/
theorem scan?_word {c : Char} {letters rest : List Char} {token : Token}
    (hlower : (c :: letters).all Char.isLower = true)
    (hword : ofWord? (letters.reverse ++ [c]) = some token) (hends : Ends rest) :
    scan? .between (c :: letters ++ rest) = (scan? .between rest).map (token :: ·) := by
  rw [List.all_eq_true, List.forall_mem_cons] at hlower
  have hbegin : step? .between c = some ([], .word [c]) := start?_of_isLower hlower.1
  rw [List.cons_append, scan?_cons_inside hbegin, scan?_letters hlower.2]
  refine scan?_ended ?_ (fun d hd => ?_) hends
  · rw [finish?, hword]
    rfl
  · have hplain : d.isLower = false := by
      rcases hd with rfl | rfl | rfl <;> rfl
    rw [step?.eq_2, hplain, hword]
    rcases hd with rfl | rfl | rfl <;> rfl

end Token

/-! ## Parts of a document -/

/-- The state that a text leads to. -/
def State.readOn? (state : State) (chars : List Char) : Option State :=
  Token.scan? .between chars >>= state.run?

variable {state next : State} {place outer : Context} {rest : List Char}

theorem readOn?_token {token : Token} {chars : List Char}
    (hscan : Token.scan? .between (chars ++ rest) = (Token.scan? .between rest).map (token :: ·))
    (hnext : state.next? token = some next) :
    state.readOn? (chars ++ rest) = next.readOn? rest := by
  rw [State.readOn?, State.readOn?, hscan]
  cases Token.scan? .between rest with
  | none => rfl
  | some tokens => simp [State.run?, hnext]

/-- A mark between values. -/
theorem readOn?_mark {c : Char} {token : Token} (htoken : Token.punctuation? c = some token)
    (hnext : state.next? token = some next) : state.readOn? (c :: rest) = next.readOn? rest :=
  @readOn?_token state next rest token [c] (Token.scan?_punctuation htoken rest) hnext

/-- A value may come next, and takes this place. -/
def Awaits (state : State) (place : Context) : Prop :=
  ∀ token, token ≠ .closeBracket → state.next? token = place.begin? token

theorem awaits_value (place : Context) : Awaits (.value place) place :=
  fun _ _ => rfl

theorem awaits_firstItem (outer : Context) : Awaits (.firstItem outer) (.item [] outer) := by
  intro token htoken
  cases token with
  | closeBracket => exact absurd rfl htoken
  | _ => rfl

/-- The text of a document takes the place of its value, whatever follows it. -/
def ReadsBack (json : Json) : Prop :=
  ∀ (state : State) (place : Context) (rest : List Char), Awaits state place → Token.Ends rest →
    state.readOn? (json.render ++ rest) = (place.fill json).readOn? rest

theorem ends_mark {c : Char} (hc : c = ',' ∨ c = ']' ∨ c = '\x7d') (rest : List Char) :
    Token.Ends (c :: rest) := by
  rintro d hd
  obtain rfl := Option.some.inj hd
  exact hc

theorem readOn?_items {first : Json} {more : List Json}
    (hitems : ∀ item ∈ first :: more, ReadsBack item) {read : List Json}
    (hstate : Awaits state (.item read outer)) :
    state.readOn? (separated [','] (renderItems (first :: more)) ++ ']' :: rest) =
      (outer.fill (.array (read.reverse ++ first :: more))).readOn? rest := by
  induction more generalizing first state read with
  | nil =>
    rw [renderItems, renderItems, separated,
      hitems first List.mem_cons_self _ _ _ hstate (ends_mark (by decide) _), Context.fill,
      readOn?_mark rfl rfl, List.reverse_cons]
  | cons second more ih =>
    rw [renderItems, renderItems, separated, List.append_assoc, List.append_assoc,
      List.singleton_append, hitems first List.mem_cons_self _ _ _ hstate (ends_mark (by decide) _),
      Context.fill, readOn?_mark rfl rfl,
      ← renderItems, ih (fun item hitem => hitems item (List.mem_cons_of_mem _ hitem))
        (awaits_value _), List.reverse_cons, List.append_assoc, List.singleton_append]
    exact List.cons_ne_nil _ _

theorem readOn?_members {first : String × Json} {more : List (String × Json)}
    (hmembers : ∀ member ∈ first :: more, ReadsBack member.2) {read : List Member}
    (hstate : ∀ name, state.next? (.string name) = some (.colon read name outer)) :
    state.readOn? (separated [','] (renderMembers ((first :: more).map fun (name, value) =>
        (some name, value))) ++ '\x7d' :: rest) =
      (outer.fill (.object (read.reverse ++ (first :: more).map fun (name, value) =>
        (some name, value)))).readOn? rest := by
  induction more generalizing first state read with
  | nil =>
    rw [List.map_singleton, renderMembers, renderMembers, separated, List.append_assoc,
      readOn?_token (Token.scan?_renderString _ _) (hstate _), List.cons_append,
      readOn?_mark rfl rfl,
      hmembers first List.mem_cons_self _ _ _ (awaits_value _) (ends_mark (by decide) _), Context.fill,
      readOn?_mark rfl rfl, List.reverse_cons]
  | cons second more ih =>
    rw [List.map_cons, List.map_cons, renderMembers, renderMembers, separated, List.append_assoc,
      List.append_assoc, List.append_assoc,
      readOn?_token (Token.scan?_renderString _ _) (hstate _), List.cons_append,
      readOn?_mark rfl rfl, List.singleton_append,
      hmembers first List.mem_cons_self _ _ _ (awaits_value _) (ends_mark (by decide) _), Context.fill,
      readOn?_mark rfl rfl, ← renderMembers]
    · refine (ih (fun member hmember => hmembers member (List.mem_cons_of_mem _ hmember))
        fun _ => rfl).trans ?_
      rw [List.reverse_cons, List.append_assoc]
      rfl
    · exact List.cons_ne_nil _ _

theorem readsBack_of_word {json : Json} (c : Char) (letters : List Char) {token : Token}
    (hrender : json.render = c :: letters) (hlower : (c :: letters).all Char.isLower = true)
    (hword : Token.ofWord? (letters.reverse ++ [c]) = some token) (htoken : token ≠ .closeBracket)
    (hbegin : ∀ place : Context, place.begin? token = some (place.fill json)) : json.ReadsBack := by
  intro state place rest hawaits hends
  rw [hrender]
  exact readOn?_token (Token.scan?_word hlower hword hends)
    ((hawaits token htoken).trans (hbegin place))

/-! ## Documents -/

theorem IsPlain.readsBack {json : Json} (hjson : json.IsPlain) : json.ReadsBack := by
  induction hjson with
  | null =>
    have hword : Token.ofWord? ['l', 'l', 'u', 'n'] = some .null := by decide +kernel
    exact readsBack_of_word 'n' ['u', 'l', 'l'] rfl (by decide) hword (by decide) fun _ => rfl
  | bool value =>
    cases value with
    | false =>
      have hword : Token.ofWord? ['e', 's', 'l', 'a', 'f'] = some (.bool false) := by decide +kernel
      exact readsBack_of_word 'f' ['a', 'l', 's', 'e'] rfl (by decide) hword (by decide) fun _ => rfl
    | true =>
      have hword : Token.ofWord? ['e', 'u', 'r', 't'] = some (.bool true) := by decide +kernel
      exact readsBack_of_word 't' ['r', 'u', 'e'] rfl (by decide) hword (by decide) fun _ => rfl
  | nat n =>
    intro state place rest hawaits hends
    have hrender : (Json.nat n).render = Numeral.digitsOf n := by
      simp [Json.nat, Json.render, Numeral.render, Numeral.ofNat]
    rw [hrender]
    exact readOn?_token (Token.scan?_digitsOf n hends) (hawaits _ Token.noConfusion)
  | text value =>
    intro state place rest hawaits hends
    exact readOn?_token (Token.scan?_renderString value rest) (hawaits _ Token.noConfusion)
  | @array items _ ih =>
    intro state place rest hawaits hends
    have hopen := hawaits .openBracket (by decide)
    rw [Json.render, List.cons_append, List.cons_append,
      readOn?_mark rfl hopen, List.append_assoc,
      List.singleton_append]
    cases items with
    | nil => exact readOn?_mark rfl rfl
    | cons first more => exact readOn?_items ih (awaits_firstItem place)
  | @record members _ ih =>
    intro state place rest hawaits hends
    have hopen := hawaits .openBrace (by decide)
    rw [Json.record, Json.render, List.cons_append, List.cons_append,
      readOn?_mark rfl hopen, List.append_assoc,
      List.singleton_append]
    cases members with
    | nil => exact readOn?_mark rfl rfl
    | cons first more => exact @readOn?_members (.firstName place) place rest first more ih [] fun _ => rfl

/-- A document is read from its compact text. -/
theorem parse?_compact {json : Json} (hjson : json.IsPlain) : parse? json.compact = some json := by
  have hread : (State.value .root).readOn? (json.render ++ []) = some (.finished json) :=
    hjson.readsBack _ _ _ (awaits_value _) fun c hc => by cases hc
  rw [List.append_nil, State.readOn?] at hread
  obtain ⟨tokens, htokens, hrun⟩ := Option.bind_eq_some_iff.mp hread
  rw [parse?, compact, String.toList_ofList, Token.ofText?, htokens, Option.bind_eq_bind,
    Option.bind_some, ofTokens?, hrun]

end TableAppend.Json
