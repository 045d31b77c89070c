import SchemaLoom.Proofs.Document.Agreement
import SchemaLoom.Proofs.Document.Unlocated

/-! The parsers of all parts of a document, with and without further tokens after those of a text.
No part of a definition goes on with the first token of another definition. -/

namespace SchemaLoom

namespace Continuation

open SchemaLoom.Parser

variable {k : Continuation}

/-! ### Values and types -/

theorem fails_rejectVariable (start : Nat) (found : Option Lexeme) :
    Fails (rejectVariable start found) := by
  refine .of_bind (fun next => ?_) _
  split <;> exact fails_failAt _ _

theorem agrees_variableLiteral (constant : Bool) :
    k.Agrees Eq (variableLiteral constant) (variableLiteral constant) := by
  refine agrees_position.bind fun start start' _ => ?_
  have hbody : ∀ found found' : Option Lexeme, k.Agrees Eq
      (do
        mark .dollar
        if constant then rejectVariable start found else return Literal.var (← name))
      (do
        mark .dollar
        if constant then rejectVariable start' found' else return Literal.var (← name)) := by
    intro found found'
    refine (agrees_mark .dollar).bindEq fun _ => ?_
    cases constant with
    | true => exact agrees_of_fails (fails_rejectVariable start found) _
    | false => exact agrees_name.bindEq fun text => .pure rfl
  exact agrees_peekLexeme_bind (fun found => (hbody _ _).next) (hbody _ _)

theorem agrees_objectField {value : Parser Literal} (h : k.Agrees Eq value value) :
    k.Agrees Eq (objectField value) (objectField value) :=
  agrees_name.bindEq fun _ => (agrees_mark .colon).bindEq fun _ => h.bindEq fun _ => .pure rfl

theorem agrees_compound {value : Parser Literal} (h : k.Agrees Eq value value) :
    k.Agrees Eq (compound value) (compound value) := by
  refine (agrees_at? .bracketL).bindEq fun isList => ?_
  cases isList with
  | true =>
    exact (agrees_anyBetween (e := id) _ _ h).items_eq.bindEq fun items => .pure rfl
  | false =>
    exact (agrees_anyBetween (e := id) _ _ (agrees_objectField h)).items_eq.bindEq
      fun items => .pure rfl

theorem agrees_literalWith (constant : Bool) {nested : Parser Literal}
    (h : k.Agrees Eq nested nested) :
    k.Agrees Eq (literalWith constant nested) (literalWith constant nested) := by
  refine AgreesNext.agrees (agreesNext_peekLexeme_bind fun lexeme => ?_)
    (needsToken_peekLexeme_bind fails_unexpected.needsToken)
  cases lexeme with
  | punctuator m =>
    cases m with
    | bracketL => exact h.next
    | braceL => exact h.next
    | dollar => exact (agrees_variableLiteral constant).next
    | _ => exact (agrees_of_fails fails_unexpected _).next
  | _ => exact agreesNext_advance.bind fun _ _ _ => .pure rfl

theorem agrees_literalWithin (constant : Bool) (n : Nat) :
    k.Agrees Eq (literalWithin constant n) (literalWithin constant n) := by
  induction n with
  | zero => exact agrees_literalWith constant (agrees_of_fails fails_tooDeep _)
  | succ n ih => exact agrees_literalWith constant (agrees_compound ih)

theorem agrees_typeRefWithin (n : Nat) : k.Agrees Eq (typeRefWithin n) (typeRefWithin n) := by
  induction n with
  | zero => exact agrees_of_fails fails_tooDeep _
  | succ n ih =>
    have hinner : k.Agrees Eq
        (do
          if ← mark? .bracketL then
            let item ← typeRefWithin n
            mark .bracketR
            return TypeRef.list item
          else return .named (← name))
        (do
          if ← mark? .bracketL then
            let item ← typeRefWithin n
            mark .bracketR
            return TypeRef.list item
          else return .named (← name)) := by
      refine (agrees_mark? .bracketL).bindEq fun isList => ?_
      cases isList with
      | true => exact ih.bindEq fun _ => (agrees_mark .bracketR).bindEq fun _ => .pure rfl
      | false => exact agrees_name.bindEq fun _ => .pure rfl
    refine hinner.bindEq fun inner => (agrees_mark? .bang).bindEq fun required => ?_
    cases required <;> exact .pure rfl

theorem agrees_typeRef : k.Agrees Eq typeRef typeRef := agrees_typeRefWithin _

/-! ### Directives -/

section Directives

variable {value : Parser Literal}

theorem agrees_argument (h : k.Agrees Eq value value) :
    k.Agrees (SameUpTo Argument.unlocated) (argument value) (argument value) :=
  agrees_name.bindEq fun _ => (agrees_mark .colon).bindEq fun _ =>
    agrees_position.bind fun start start' _ => h.bindEq fun _ =>
    (agrees_locate start start').bind fun _ _ _ => .pure rfl

theorem agrees_arguments (h : k.Agrees Eq value value) :
    k.Agrees (SameUpTo (List.map Argument.unlocated)) (arguments value) (arguments value) :=
  agrees_optionalBetween _ _ (agrees_argument h)

theorem agrees_directive (h : k.Agrees Eq value value) :
    k.Agrees (SameUpTo Directive.unlocated) (directive value) (directive value) :=
  agrees_position.bind fun start start' _ => (agrees_mark .atSign).bindEq fun _ =>
    agrees_name.bindEq fun own => (agrees_arguments h).bind fun _ _ hargs =>
    (agrees_locate start start').bind fun _ _ _ =>
    .pure (congrArg (Directive.mk own · none) hargs)

theorem agrees_directivesWith (h : k.Agrees Eq value value) :
    k.Agrees (SameUpTo (List.map Directive.unlocated)) (directivesWith value)
      (directivesWith value) :=
  agrees_tokensLeft.bind fun _ _ hnm =>
    agrees_itemsWhile _ (agrees_directive h) (Nat.succ_le_succ hnm)

theorem agrees_directives (constant : Bool) :
    k.Agrees (SameUpTo (List.map Directive.unlocated)) (directives constant)
      (directives constant) :=
  agrees_directivesWith (agrees_literalWithin constant _)

end Directives

theorem agrees_default? : k.Agrees Eq default? default? := by
  refine (agrees_mark? .equals).bindEq fun found => ?_
  cases found with
  | true => exact (agrees_literalWithin true _).bindEq fun _ => .pure rfl
  | false => exact .pure rfl

/-! ### Descriptions -/

section Description

variable {S : γ → δ → Prop} {f : Option StringLiteral → Parser γ}
  {g : Option StringLiteral → Parser δ}

theorem agreesNext_description? : k.AgreesNext Eq description? description? := by
  refine agreesNext_peekLexeme_bind fun lexeme => ?_
  cases lexeme with
  | string text => exact agreesNext_advance.bind fun _ _ _ => .pure rfl
  | blockString text => exact agreesNext_advance.bind fun _ _ _ => .pure rfl
  | _ => exact (Agrees.pure rfl).next

theorem needsToken_description?_bind (h : NeedsToken (f none)) :
    NeedsToken (description? >>= f) := by
  intro c a d hc hrun
  have hnone : description?.run c = .ok (none, c) := by
    rw [description?, peekLexeme_bind_run, hc]
    rfl
  rw [StateT.run_bind, hnone] at hrun
  exact h c a d hc hrun

/-- At the end of a text a description could be the next definition's, so something has to follow.
-/
theorem agrees_description?_bind (h : NeedsToken (f none))
    (hf : ∀ description, k.Agrees S (f description) (g description)) :
    k.Agrees S (description? >>= f) (description? >>= g) :=
  AgreesNext.agrees (agreesNext_description?.bind fun _ _ heq => heq ▸ hf _)
    (needsToken_description?_bind h)

end Description

theorem agrees_variableDefinition :
    k.Agrees (SameUpTo VariableDefinition.unlocated) variableDefinition variableDefinition :=
  agrees_description?_bind ((needsToken_mark _).bind _) fun description =>
    (agrees_mark .dollar).bindEq fun _ => agrees_name.bindEq fun own =>
    (agrees_mark .colon).bindEq fun _ => agrees_typeRef.bindEq fun type =>
    agrees_default?.bindEq fun default => (agrees_directives true).bind fun _ _ hdirs =>
    .pure (congrArg (VariableDefinition.mk description own type default) hdirs)

theorem agrees_fragmentName : k.Agrees Eq fragmentName fragmentName := by
  refine AgreesNext.agrees (agreesNext_peekLexeme_bind fun lexeme => ?_)
    (needsToken_peekLexeme_bind needsToken_name)
  by_cases hon : (some lexeme).bind Lexeme.text? = some "on"
  · simp only [if_pos hon]
    exact (agrees_of_fails fails_unexpected _).next
  · simp only [if_neg hon]
    exact agrees_name.next

/-! ### Selections -/

theorem directivesWith_run_end {c : Cursor} (h : c.tokens = []) (value : Parser Literal) :
    (directivesWith value).run c = .ok ([], c) := by
  obtain ⟨tokens, ending, previous, body⟩ := c
  obtain rfl : tokens = [] := h
  rfl

theorem optionalBetween_run_end {c : Cursor} (h : c.tokens = []) (opening close : Punctuator)
    (item : Parser α) : (optionalBetween opening close item).run c = .ok ([], c) := by
  obtain ⟨tokens, ending, previous, body⟩ := c
  obtain rfl : tokens = [] := h
  rfl

theorem staysAtEnd_of_run {p : Parser α} {a : α}
    (h : ∀ {c : Cursor}, c.tokens = [] → p.run c = .ok (a, c)) : StaysAtEnd p := by
  intro c b d hc hrun
  rw [h hc] at hrun
  obtain ⟨-, rfl⟩ := Prod.mk.inj (Except.ok.inj hrun)
  exact hc

theorem staysAtEnd_directivesWith (value : Parser Literal) : StaysAtEnd (directivesWith value) :=
  staysAtEnd_of_run fun h => directivesWith_run_end h value

theorem staysAtEnd_optionalBetween (opening close : Punctuator) (item : Parser α) :
    StaysAtEnd (optionalBetween opening close item) :=
  staysAtEnd_of_run fun h => optionalBetween_run_end h opening close item

theorem needsToken_selectionsWithin (n : Nat) : NeedsToken (selectionsWithin n) :=
  match n with
  | 0 => fails_tooDeep.needsToken
  | _ + 1 => (needsToken_mark _).bind _

section Selections

variable {value : Parser Literal} {inner : Parser (List Selection)}

theorem agrees_inline (h : k.Agrees Eq value value)
    (hi : k.Agrees (SameUpTo (List.map Selection.unlocated)) inner inner)
    (condition : Option Name) :
    k.Agrees (SameUpTo Selection.unlocated)
      (do
        let dirs ← directivesWith value
        return Selection.inline condition dirs (← inner))
      (do
        let dirs ← directivesWith value
        return Selection.inline condition dirs (← inner)) := by
  refine (agrees_directivesWith h).bind fun _ _ hdirs => hi.bind fun _ _ hsels => .pure ?_
  rw [SameUpTo, Selection.unlocated, Selection.unlocated, Selection.unlocatedAll_eq,
    Selection.unlocatedAll_eq]
  exact congrArg₂ (Selection.inline condition) hdirs hsels

theorem agrees_fragmentSpread (h : k.Agrees Eq value value)
    (hi : k.Agrees (SameUpTo (List.map Selection.unlocated)) inner inner)
    (hn : NeedsToken inner) :
    k.Agrees (SameUpTo Selection.unlocated)
      (do
        match ← peekLexeme with
        | some (.name _) =>
          let spread ← fragmentName
          return Selection.spread spread (← directivesWith value)
        | _ =>
          let dirs ← directivesWith value
          return Selection.inline none dirs (← inner))
      (do
        match ← peekLexeme with
        | some (.name _) =>
          let spread ← fragmentName
          return Selection.spread spread (← directivesWith value)
        | _ =>
          let dirs ← directivesWith value
          return Selection.inline none dirs (← inner)) := by
  refine AgreesNext.agrees (agreesNext_peekLexeme_bind fun lexeme => ?_)
    (needsToken_peekLexeme_bind
      ((staysAtEnd_directivesWith value).bind_needsToken fun _ => hn.bind _))
  cases lexeme with
  | name text =>
    refine (agrees_fragmentName.bindEq fun own => ?_).next
    exact (agrees_directivesWith h).bind fun _ _ hdirs =>
      .pure (congrArg (Selection.spread own) hdirs)
  | _ => exact (agrees_inline h hi none).next

theorem agrees_alias (first : Name) :
    k.Agrees Eq
      (do if ← mark? .colon then return (some first, ← name) else return (none, first))
      (do if ← mark? .colon then return (some first, ← name) else return (none, first)) := by
  refine (agrees_mark? .colon).bindEq fun found => ?_
  cases found with
  | true => exact agrees_name.bindEq fun _ => .pure rfl
  | false => exact .pure rfl

theorem agrees_subselections (hi : k.Agrees (SameUpTo (List.map Selection.unlocated)) inner inner) :
    k.Agrees (SameUpTo (List.map Selection.unlocated))
      (do if ← at? .braceL then inner else return [])
      (do if ← at? .braceL then inner else return []) := by
  refine (agrees_at? .braceL).bindEq fun found => ?_
  cases found with
  | true => exact hi
  | false => exact .pure rfl

theorem agrees_selectionWith (h : k.Agrees Eq value value)
    (hi : k.Agrees (SameUpTo (List.map Selection.unlocated)) inner inner)
    (hn : NeedsToken inner) :
    k.Agrees (SameUpTo Selection.unlocated) (selectionWith value inner)
      (selectionWith value inner) := by
  refine (agrees_mark? .spread).bindEq fun isFragment => ?_
  cases isFragment with
  | true =>
    refine (agrees_keyword? (by decide)).bindEq fun hasCondition => ?_
    cases hasCondition with
    | true => exact agrees_name.bindEq fun condition => agrees_inline h hi (some condition)
    | false => exact agrees_fragmentSpread h hi hn
  | false =>
    refine agrees_name.bindEq fun first => ?_
    refine (agrees_alias first).bindEq fun ⟨label, field⟩ => ?_
    refine (agrees_arguments h).bind fun _ _ hargs => (agrees_directivesWith h).bind
      fun _ _ hdirs => (agrees_subselections hi).bind fun _ _ hsels => .pure ?_
    rw [SameUpTo, Selection.unlocated, Selection.unlocated, Selection.unlocatedAll_eq,
      Selection.unlocatedAll_eq, hargs, hdirs, hsels]

theorem agrees_selectionsWithin (n : Nat) :
    k.Agrees (SameUpTo (List.map Selection.unlocated)) (selectionsWithin n)
      (selectionsWithin n) := by
  induction n with
  | zero => exact agrees_of_fails fails_tooDeep _
  | succ n ih =>
    exact agrees_manyBetween _ _
      (agrees_selectionWith (agrees_literalWithin _ _) ih (needsToken_selectionsWithin n))

end Selections

theorem agrees_selections :
    k.Agrees (SameUpTo (List.map Selection.unlocated)) selections selections :=
  agrees_selectionsWithin _

/-! ### Executable definitions -/

theorem agrees_operation : k.Agrees Eq operation operation := by
  refine agrees_position.bind fun _ _ _ => agrees_name.bindEq fun word => ?_
  cases Operation.ofName? word with
  | some own => exact .pure rfl
  | none => exact agrees_of_fails (fails_failAt _ _) _

theorem needsToken_operation : NeedsToken operation := by
  intro c a d hc hrun
  rw [operation, position_bind_run] at hrun
  exact needsToken_name.bind _ c a d hc hrun

theorem staysAtEnd_operationName :
    StaysAtEnd (do
      match ← peekLexeme with
      | some (.name _) => return some (← name)
      | _ => return none) := by
  intro c a d hc hrun
  rw [peekLexeme_bind_run, hc] at hrun
  exact staysAtEnd_pure none c a d hc hrun

theorem agreesNext_operationName :
    k.AgreesNext Eq
      (do
        match ← peekLexeme with
        | some (.name _) => return some (← name)
        | _ => return none)
      (do
        match ← peekLexeme with
        | some (.name _) => return some (← name)
        | _ => return none) := by
  refine agreesNext_peekLexeme_bind fun lexeme => ?_
  cases lexeme with
  | name text => exact (agrees_name.bindEq fun _ => .pure rfl).next
  | _ => exact (Agrees.pure rfl).next

theorem agrees_operationDefinition :
    k.Agrees (SameUpTo Definition.unlocated) operationDefinition operationDefinition := by
  refine agrees_position.bind fun start start' _ => (agrees_at? .braceL).bindEq fun short => ?_
  cases short with
  | true =>
    refine agrees_selections.bind fun _ _ hsels =>
      (agrees_locate start start').bind fun _ _ _ => .pure ?_
    simp only [SameUpTo, Definition.unlocated, OperationDefinition.unlocated, hsels]
  | false =>
    refine agrees_description?_bind (needsToken_operation.bind _) fun description =>
      agrees_operation.bindEq fun op => ?_
    refine AgreesNext.agrees (agreesNext_operationName.bind ?_)
      (staysAtEnd_operationName.bind_needsToken fun _ =>
        (staysAtEnd_optionalBetween _ _ _).bind_needsToken fun _ =>
        (staysAtEnd_directivesWith _).bind_needsToken fun _ =>
        (needsToken_selectionsWithin _).bind _)
    rintro own _ rfl
    refine (agrees_optionalBetween _ _ agrees_variableDefinition).bind fun _ _ hparams =>
      (agrees_directives false).bind fun _ _ hdirs => agrees_selections.bind fun _ _ hsels =>
      (agrees_locate start start').bind fun _ _ _ => .pure ?_
    simp only [SameUpTo, Definition.unlocated, OperationDefinition.unlocated, hparams, hdirs, hsels]

theorem agrees_fragmentDefinition :
    k.Agrees (SameUpTo Definition.unlocated) fragmentDefinition fragmentDefinition := by
  refine agrees_position.bind fun start start' _ =>
    agrees_description?_bind ((needsToken_keyword _).bind _) fun description =>
    (agrees_keyword _).bindEq fun _ => agrees_fragmentName.bindEq fun own =>
    (agrees_keyword _).bindEq fun _ => agrees_name.bindEq fun condition =>
    (agrees_directives false).bind fun _ _ hdirs => agrees_selections.bind fun _ _ hsels =>
    (agrees_locate start start').bind fun _ _ _ => .pure ?_
  simp only [SameUpTo, Definition.unlocated, FragmentDefinition.unlocated, hdirs, hsels]

/-! ### Fields, values and arguments -/

theorem agrees_operationType : k.Agrees Eq operationType operationType :=
  agrees_operation.bindEq fun _ => (agrees_mark .colon).bindEq fun _ =>
    agrees_name.bindEq fun _ => .pure rfl

theorem agrees_inputValueDefinition :
    k.Agrees (SameUpTo InputValueDefinition.unlocated) inputValueDefinition
      inputValueDefinition :=
  agrees_description?_bind (needsToken_name.bind _) fun description =>
    agrees_name.bindEq fun own => (agrees_mark .colon).bindEq fun _ =>
    agrees_typeRef.bindEq fun type => agrees_default?.bindEq fun default =>
    (agrees_directives true).bind fun _ _ hdirs =>
    .pure (congrArg (InputValueDefinition.mk description own type default) hdirs)

theorem agrees_argumentDefinitions :
    k.Agrees (SameUpTo (List.map InputValueDefinition.unlocated)) argumentDefinitions
      argumentDefinitions :=
  agrees_optionalBetween _ _ agrees_inputValueDefinition

theorem agrees_fieldDefinition :
    k.Agrees (SameUpTo FieldDefinition.unlocated) fieldDefinition fieldDefinition := by
  refine agrees_description?_bind (needsToken_name.bind _) fun description =>
    agrees_name.bindEq fun own => agrees_argumentDefinitions.bind fun _ _ hargs =>
    (agrees_mark .colon).bindEq fun _ => agrees_typeRef.bindEq fun type =>
    (agrees_directives true).bind fun _ _ hdirs => .pure ?_
  simp only [SameUpTo, FieldDefinition.unlocated, hargs, hdirs]

theorem agrees_inputFieldDefinition :
    k.Agrees (SameUpTo FieldDefinition.unlocated) inputFieldDefinition inputFieldDefinition := by
  refine agrees_inputValueDefinition.bind fun value value' hvalue => .pure ?_
  obtain ⟨description, own, type, default, dirs⟩ := value
  obtain ⟨description', own', type', default', dirs'⟩ := value'
  obtain ⟨rfl, rfl, rfl, rfl, hdirs⟩ := InputValueDefinition.mk.inj hvalue
  simp only [SameUpTo, FieldDefinition.unlocated, hdirs, List.map_nil]

theorem agrees_fieldDefinitions :
    k.Agrees (SameUpTo (List.map FieldDefinition.unlocated)) fieldDefinitions fieldDefinitions :=
  agrees_optionalBetween _ _ agrees_fieldDefinition

theorem agrees_interfaces : k.Agrees Eq interfaces interfaces := by
  refine (agrees_keyword? (by decide)).bindEq fun found => ?_
  cases found with
  | true => exact (agrees_separated (e := id) _ agrees_name).items_eq
  | false => exact .pure rfl

theorem agrees_members : k.Agrees Eq members members := by
  refine (agrees_mark? .equals).bindEq fun found => ?_
  cases found with
  | true => exact (agrees_separated (e := id) _ agrees_name).items_eq
  | false => exact .pure rfl

theorem agrees_enumValueName : k.Agrees Eq enumValueName enumValueName := by
  refine AgreesNext.agrees (agreesNext_peekLexeme_bind fun lexeme => ?_)
    (needsToken_peekLexeme_bind needsToken_name)
  by_cases hreserved : lexeme.text?.any reservedNames.contains = true
  · simp only [if_pos hreserved]
    exact (agrees_of_fails (.of_bind (fun _ => fails_failAt _ _) _) _).next
  · simp only [if_neg hreserved]
    exact agrees_name.next

theorem needsToken_enumValueName : NeedsToken enumValueName :=
  needsToken_peekLexeme_bind needsToken_name

theorem agrees_enumValueDefinition :
    k.Agrees (SameUpTo EnumValueDefinition.unlocated) enumValueDefinition enumValueDefinition :=
  agrees_description?_bind (needsToken_enumValueName.bind _) fun description =>
    agrees_enumValueName.bindEq fun own => (agrees_directives true).bind fun _ _ hdirs =>
    .pure (congrArg (EnumValueDefinition.mk description own) hdirs)

/-! ### Types -/

def unlocatedParts (parts : List Directive × TypeBody) : List Directive × TypeBody :=
  (parts.1.map Directive.unlocated, parts.2.unlocated)

theorem agrees_typeParts (kind : TypeKind) :
    k.Agrees (SameUpTo unlocatedParts) (typeParts kind) (typeParts kind) := by
  have hdirs := agrees_directives (k := k) true
  cases kind with
  | scalar =>
    refine hdirs.bind fun _ _ hdirs => .pure ?_
    simp only [SameUpTo, unlocatedParts, hdirs]
  | object =>
    refine agrees_interfaces.bindEq fun implemented => hdirs.bind fun _ _ hdirs =>
      agrees_fieldDefinitions.bind fun _ _ hfields => .pure ?_
    simp only [SameUpTo, unlocatedParts, TypeBody.unlocated, hdirs, hfields]
  | interface =>
    refine agrees_interfaces.bindEq fun implemented => hdirs.bind fun _ _ hdirs =>
      agrees_fieldDefinitions.bind fun _ _ hfields => .pure ?_
    simp only [SameUpTo, unlocatedParts, TypeBody.unlocated, hdirs, hfields]
  | union =>
    refine hdirs.bind fun _ _ hdirs => agrees_members.bindEq fun members => .pure ?_
    simp only [SameUpTo, unlocatedParts, TypeBody.unlocated, hdirs]
  | enum =>
    refine hdirs.bind fun _ _ hdirs =>
      (agrees_optionalBetween _ _ agrees_enumValueDefinition).bind fun _ _ hvalues => .pure ?_
    simp only [SameUpTo, unlocatedParts, TypeBody.unlocated, hdirs, hvalues]
  | inputObject =>
    refine hdirs.bind fun _ _ hdirs =>
      (agrees_optionalBetween _ _ agrees_inputFieldDefinition).bind fun _ _ hfields => .pure ?_
    simp only [SameUpTo, unlocatedParts, TypeBody.unlocated, hdirs, hfields]

theorem needsToken_advance_bind {f : Unit → Parser γ} (h : NeedsToken (f ())) :
    NeedsToken (advance >>= f) := by
  intro c a d hc hrun
  rw [StateT.run_bind, advance_run_end hc] at hrun
  exact h c a d hc hrun

theorem agrees_advance_bind {S : γ → δ → Prop} {f : Unit → Parser γ} {g : Unit → Parser δ}
    (hn : NeedsToken (f ())) (h : k.Agrees S (f ()) (g ())) :
    k.Agrees S (advance >>= f) (advance >>= g) :=
  AgreesNext.agrees (agreesNext_advance.bind fun _ _ _ => h) (needsToken_advance_bind hn)

theorem agrees_typeDefinition (kind : TypeKind) :
    k.Agrees (SameUpTo Definition.unlocated) (typeDefinition kind) (typeDefinition kind) := by
  refine agrees_position.bind fun start start' _ =>
    agrees_description?_bind (needsToken_advance_bind (needsToken_name.bind _)) fun description =>
    agrees_advance_bind (needsToken_name.bind _) ?_
  refine agrees_name.bindEq fun own => (agrees_typeParts kind).bind
    fun ⟨dirs, body⟩ ⟨dirs', body'⟩ hparts =>
    (agrees_locate start start').bind fun _ _ _ => .pure ?_
  obtain ⟨hdirs, hbody⟩ := Prod.mk.inj hparts
  simp only [SameUpTo, Definition.unlocated, TypeDefinition.unlocated, hdirs, hbody]

theorem isEmpty_eq_of_map_eq {as bs : List α} {e : α → ε} (h : as.map e = bs.map e) :
    as.isEmpty = bs.isEmpty := by
  rw [← List.isEmpty_map (f := e), h, List.isEmpty_map]

theorem isBare_unlocated (body : TypeBody) : isBare body.unlocated = isBare body := by
  cases body <;> simp [TypeBody.unlocated, isBare]

/-- An extension that extends nothing is refused. -/
theorem agrees_unless_unexpected {S : γ → δ → Prop} {f : Unit → Parser γ} {g : Unit → Parser δ}
    {refused refused' : Bool} (heq : refused = refused') (h : k.Agrees S (f ()) (g ())) :
    k.Agrees S (if refused then unexpected >>= f else f ())
      (if refused' then unexpected >>= g else g ()) := by
  subst heq
  cases refused with
  | true => exact agrees_of_fails (fails_unexpected.bind _) _
  | false => exact h

theorem agrees_typeExtension (kind : TypeKind) :
    k.Agrees (SameUpTo Definition.unlocated) (typeExtension kind) (typeExtension kind) := by
  refine agrees_position.bind fun start start' _ =>
    agrees_advance_bind (needsToken_advance_bind (needsToken_name.bind _))
      (agrees_advance_bind (needsToken_name.bind _) ?_)
  refine agrees_name.bindEq fun own => (agrees_typeParts kind).bind
    fun ⟨dirs, body⟩ ⟨dirs', body'⟩ hparts => ?_
  obtain ⟨hdirs, hbody⟩ := Prod.mk.inj hparts
  have hbare : (dirs.isEmpty && isBare body) = (dirs'.isEmpty && isBare body') := by
    rw [isEmpty_eq_of_map_eq hdirs, ← isBare_unlocated body, hbody, isBare_unlocated]
  refine agrees_unless_unexpected hbare ((agrees_locate start start').bind fun _ _ _ => .pure ?_)
  simp only [SameUpTo, Definition.unlocated, TypeDefinition.unlocated, hdirs, hbody]

/-! ### Schemas and directives -/

theorem agrees_schemaDefinition :
    k.Agrees (SameUpTo Definition.unlocated) schemaDefinition schemaDefinition := by
  refine agrees_position.bind fun start start' _ =>
    agrees_description?_bind ((needsToken_keyword _).bind _) fun description =>
    (agrees_keyword _).bindEq fun _ => (agrees_directives true).bind fun _ _ hdirs =>
    (agrees_manyBetween (e := id) _ _ agrees_operationType).items_eq.bindEq fun types =>
    (agrees_locate start start').bind fun _ _ _ => .pure ?_
  simp only [SameUpTo, Definition.unlocated, SchemaDefinition.unlocated, hdirs]

theorem agrees_schemaExtension :
    k.Agrees (SameUpTo Definition.unlocated) schemaExtension schemaExtension := by
  refine agrees_position.bind fun start start' _ =>
    (agrees_keyword _).bindEq fun _ => (agrees_keyword _).bindEq fun _ =>
    (agrees_directives true).bind fun dirs dirs' hdirs =>
    (agrees_optionalBetween (e := id) _ _ agrees_operationType).items_eq.bindEq fun types => ?_
  refine agrees_unless_unexpected (congrArg (· && _) (isEmpty_eq_of_map_eq hdirs))
    ((agrees_locate start start').bind fun _ _ _ => .pure ?_)
  simp only [SameUpTo, Definition.unlocated, SchemaDefinition.unlocated, hdirs]

theorem agrees_place : k.Agrees Eq place place := by
  refine agrees_position.bind fun _ _ _ => agrees_name.bindEq fun word => ?_
  cases Place.ofName? word with
  | some own => exact .pure rfl
  | none => exact agrees_of_fails (fails_failAt _ _) _

theorem agrees_directiveDefinition :
    k.Agrees (SameUpTo Definition.unlocated) directiveDefinition directiveDefinition := by
  refine agrees_position.bind fun start start' _ =>
    agrees_description?_bind ((needsToken_keyword _).bind _) fun description =>
    (agrees_keyword _).bindEq fun _ => (agrees_mark .atSign).bindEq fun _ =>
    agrees_name.bindEq fun own => agrees_argumentDefinitions.bind fun _ _ hargs =>
    (agrees_keyword? (by decide)).bindEq fun repeatable => (agrees_keyword _).bindEq fun _ =>
    (agrees_separated (e := id) _ agrees_place).items_eq.bindEq fun places =>
    (agrees_locate start start').bind fun _ _ _ => .pure ?_
  simp only [SameUpTo, Definition.unlocated, DirectiveDefinition.unlocated, hargs]

/-! ### Definitions -/

theorem fails_unexpectedToken (token : Option Token) : Fails (unexpectedToken token : Parser α) :=
  .of_bind (fun _ => fails_failAt _ _) _

/-- The token after the next one is another one of the text, unless the parser fails there. -/
theorem agreesNext_peekSecond_bind {S : γ → δ → Prop} {f : Option Token → Parser γ}
    {g : Option Token → Parser δ} (hn : Fails (f none))
    (h : ∀ t t', t'.lexeme = t.lexeme → k.AgreesNext S (f (some t)) (g (some t'))) :
    k.AgreesNext S (peekSecond >>= f) (peekSecond >>= g) := by
  intro c c' hrel hne a d hrun
  obtain ⟨t, rest, t', rest', hc, hc', -, hrest⟩ := hrel.exists_next hne
  rw [StateT.run_bind, peekSecond_run, hc, List.drop_one, List.tail_cons] at hrun
  cases hcheck : checkEnding rest c.ending with
  | error e => simp [hcheck, Except.map, bind, Except.bind] at hrun
  | ok _ =>
    rw [hcheck] at hrun
    cases rest with
    | nil => exact absurd hrun (hn c a d)
    | cons second left =>
      cases rest' with
      | nil => simp at hrest
      | cons second' left' =>
        rw [List.map_cons, List.map_cons, List.cons_append] at hrest
        obtain ⟨b, d', hb, hS, hrel'⟩ :=
          h second second' (List.cons_eq_cons.mp hrest).1 hrel hne hrun
        refine ⟨b, d', ?_, hS, hrel'⟩
        rw [StateT.run_bind, peekSecond_run, hc', List.drop_one, List.tail_cons]
        exact hb

theorem peek_bind_run (f : Option Token → Parser β) (c : Cursor) :
    (peek >>= f).run c = (f c.tokens.head?).run c := rfl

theorem needsToken_peek_bind {f : Option Token → Parser β} (h : NeedsToken (f none)) :
    NeedsToken (peek >>= f) := by
  intro c b d hc hrun
  rw [peek_bind_run, hc] at hrun
  exact h c b d hc hrun

theorem agreesNext_peek_bind {S : γ → δ → Prop} {f : Option Token → Parser γ}
    {g : Option Token → Parser δ}
    (h : ∀ t t', t'.lexeme = t.lexeme → k.AgreesNext S (f (some t)) (g (some t'))) :
    k.AgreesNext S (peek >>= f) (peek >>= g) := by
  intro c c' hrel hne a d hrun
  obtain ⟨t, rest, t', rest', hc, hc', hl, -⟩ := hrel.exists_next hne
  rw [peek_bind_run, hc] at hrun
  rw [peek_bind_run, hc']
  exact h t t' hl hrel hne hrun

theorem agreesNext_extension :
    k.AgreesNext (SameUpTo Definition.unlocated) extension extension := by
  refine agreesNext_peekSecond_bind (fails_unexpectedToken _) fun t t' ht => ?_
  rw [Option.map_some, Option.map_some, ht]
  split
  · exact agrees_schemaExtension.next
  · cases typeKeyword? _ with
    | some kind => exact (agrees_typeExtension kind).next
    | none => exact (agrees_of_fails (fails_unexpectedToken _) _).next
  · exact (agrees_of_fails (fails_unexpectedToken _) _).next

theorem agrees_described {word : Name} {p : Parser Definition} (h : described? word = some p) :
    k.Agrees (SameUpTo Definition.unlocated) p p := by
  unfold described? at h
  split at h
  · obtain rfl := Option.some.inj h
    exact agrees_schemaDefinition
  · obtain rfl := Option.some.inj h
    exact agrees_directiveDefinition
  · obtain rfl := Option.some.inj h
    exact agrees_fragmentDefinition
  · split at h
    · obtain rfl := Option.some.inj h
      exact agrees_operationDefinition
    · obtain ⟨kind, -, rfl⟩ := Option.map_eq_some_iff.mp h
      exact agrees_typeDefinition kind

/-- The parser for the definition that a keyword announces. -/
theorem agreesNext_announced (hasDescription : Bool) {t t' : Token} (ht : t'.lexeme = t.lexeme) :
    k.AgreesNext (SameUpTo Definition.unlocated)
      (match (some t).map Token.lexeme with
        | some (.punctuator .braceL) => do failAt (← position) .describedShorthand
        | some (.name word) =>
          match described? word with
          | some parser => parser
          | none => do
            if hasDescription then failAt (← position) .unexpectedDescription
            else if word = "extend" then extension
            else unexpectedToken (some t)
        | _ => unexpectedToken (some t))
      (match (some t').map Token.lexeme with
        | some (.punctuator .braceL) => do failAt (← position) .describedShorthand
        | some (.name word) =>
          match described? word with
          | some parser => parser
          | none => do
            if hasDescription then failAt (← position) .unexpectedDescription
            else if word = "extend" then extension
            else unexpectedToken (some t')
        | _ => unexpectedToken (some t')) := by
  rw [Option.map_some, Option.map_some, ht]
  cases t.lexeme with
  | name word =>
    simp only
    cases hd : described? word with
    | some p => exact (agrees_described hd).next
    | none =>
      cases hasDescription with
      | true => exact (agrees_of_fails (.of_bind (fun _ => fails_failAt _ _) _) _).next
      | false =>
        by_cases hw : word = "extend"
        · simp only [if_pos hw]
          exact agreesNext_extension
        · simp only [if_neg hw]
          exact (agrees_of_fails (fails_unexpectedToken _) _).next
  | punctuator m =>
    cases m with
    | braceL => exact (agrees_of_fails (.of_bind (fun _ => fails_failAt _ _) _) _).next
    | _ => exact (agrees_of_fails (fails_unexpectedToken _) _).next
  | _ => exact (agrees_of_fails (fails_unexpectedToken _) _).next

theorem agrees_definition :
    k.Agrees (SameUpTo Definition.unlocated) definition definition := by
  refine (agrees_at? .braceL).bindEq fun short => ?_
  cases short with
  | true => exact agrees_operationDefinition
  | false =>
    refine AgreesNext.agrees (agreesNext_peekLexeme_bind fun lexeme => ?_)
      (needsToken_peekLexeme_bind ?_)
    · cases hd : isDescription (some lexeme) with
      | true =>
        simp only [if_true]
        exact agreesNext_peekSecond_bind (fails_unexpectedToken _) fun t t' ht =>
          agreesNext_announced true ht
      | false =>
        exact agreesNext_peek_bind fun t t' ht => agreesNext_announced false ht
    · exact needsToken_peek_bind (fails_unexpectedToken none).needsToken

end Continuation

end SchemaLoom
