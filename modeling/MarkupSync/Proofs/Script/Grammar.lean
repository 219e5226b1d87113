import MarkupSync.Proofs.Script.Rule
import MarkupSync.Script.Statement

/-!
# The grammar stays in its script

* one instance of `Rule.Locates` for each production: types, functions and classes, markup,
  expressions, statements;
* **`locate_phrases`**: all phrases are read in their places.
-/

namespace MarkupSync.Script

open Rule

variable {source : Text} (r : Phrases) [r.Locate source]

set_option synthInstance.maxSize 100000

/-! ## Types -/

instance : Locates source (typeArguments r) := by
  unfold typeArguments
  infer_instance

instance : Locates source (optionalTypeArguments r) := by
  unfold optionalTypeArguments
  infer_instance

instance : Locates source typeParameterModifier := by
  unfold typeParameterModifier
  infer_instance

instance : Locates source (typeParameter r) := by
  unfold typeParameter
  infer_instance

instance : Locates source (typeParameters r) := by
  unfold typeParameters
  infer_instance

instance (p : Rule Unit) [Locates source p] : Locates source (ifTyped p) := by
  unfold ifTyped
  infer_instance

instance : Locates source (optionalTypeParameters r) := by
  unfold optionalTypeParameters
  infer_instance

instance : Locates source ( annotation r) := by
  unfold annotation
  infer_instance

instance : Locates source (resultOf r) := by
  unfold resultOf
  infer_instance

instance : Locates source (resultType r) := by
  unfold resultType
  infer_instance

instance : Locates source (typeOfParameter r) := by
  unfold typeOfParameter
  infer_instance

instance : Locates source (typedParameters r) := by
  unfold typedParameters
  infer_instance

instance : Locates source (functionType r) := by
  unfold functionType
  infer_instance

instance : Locates source (constructorType r) := by
  unfold constructorType
  infer_instance

instance : Locates source (namedType r) := by
  unfold namedType
  infer_instance

instance : Locates source (queryType r) := by
  unfold queryType
  infer_instance

instance : Locates source (importType r) := by
  unfold importType
  infer_instance

instance (p : Rule Unit) (n : Nat) [Locates source p] : Locates source (templateRest p n) := by
  induction n with
  | zero => exact inferInstanceAs (Locates source refuse)
  | succ n ih =>
    unfold templateRest
    refine locates_bind fun _ => locates_bind fun c => locates_bind fun _ => ?_
    split <;> infer_instance

instance (p : Rule Unit) [Locates source p] : Locates source (template p) := by
  unfold template
  refine locates_bind fun c => ?_
  split <;> infer_instance

instance : Locates source (typeMemberName r) := by
  unfold typeMemberName
  refine locates_bind fun c => ?_
  split <;> infer_instance

instance (names : List String) : Locates source (memberModifier names) := by
  unfold memberModifier
  infer_instance

instance : Locates source (indexSignature r) := by
  unfold indexSignature
  infer_instance

instance : Locates source endMember := by
  unfold endMember
  infer_instance

instance : Locates source (callSignature r) := by
  unfold callSignature
  infer_instance

instance : Locates source (typeMember r) := by
  unfold typeMember
  infer_instance

instance : Locates source (objectType r) := by
  unfold objectType
  infer_instance

instance (p : Rule Unit) [Locates source p] : Locates source (mappedModifier p) := by
  unfold mappedModifier
  infer_instance

instance : Locates source (mappedType r) := by
  unfold mappedType
  iterate 7 refine locates_bind fun _ => ?_
  extract_lets rest
  have hrest (u : Unit) : Locates source (rest u) := by
    unfold rest
    infer_instance
  infer_instance

instance : Locates source (tupleItem r) := by
  unfold tupleItem
  infer_instance

instance : Locates source (primaryType r) := by
  unfold primaryType
  refine locates_bind fun c => ?_
  split
  all_goals infer_instance

instance : Locates source (typeSuffix r) := by
  unfold typeSuffix
  infer_instance

instance (n : Nat) : Locates source (operatorType r n) := by
  induction n with
  | zero => exact inferInstanceAs (Locates source refuse)
  | succ n ih =>
    unfold operatorType
    infer_instance

instance : Locates source (unionType r) := by
  unfold unionType
  refine locates_bind fun c => ?_
  extract_lets operand rest
  have hoperand : Locates source operand :=
    ⟨fun hc h => Locates.spec (p := operatorType r _) hc h⟩
  clear_value operand
  change Rule Unit at operand
  have hrest (u : Unit) : Locates source (rest u) := by
    unfold rest
    infer_instance
  infer_instance

instance : Locates source (typeOf.conditional r) := by
  unfold typeOf.conditional
  infer_instance

instance : Locates source (typeOf r) := by
  unfold typeOf
  infer_instance

/-! ## Functions and classes -/

instance {α : Type} [HasPlaces α] (p : Rule α) [Locates source p] :
    Locates source (allowingIn p) := by
  unfold allowingIn
  infer_instance

instance : Locates source (propertyName r) := by
  unfold propertyName
  refine locates_bind fun c => ?_
  split
  case h_4 =>
    refine locates_bind fun _ => locates_bind fun key => locates_bind fun _ => locates_bind fun _ => ?_
    split <;> infer_instance
  all_goals infer_instance

instance : Locates source (defaultValue r) := by
  unfold defaultValue
  infer_instance

instance : Locates source (boundProperty r) := by
  unfold boundProperty
  infer_instance

instance : Locates source (boundItem r) := by
  unfold boundItem
  infer_instance

instance : Locates source (bindingOf r) := by
  unfold bindingOf
  infer_instance

instance : Locates source (decorator r) := by
  unfold decorator
  infer_instance

instance : Locates source parameterModifier := by
  unfold parameterModifier
  infer_instance

instance : Locates source (parameter r) := by
  unfold parameter
  infer_instance

instance : Locates source (parameters r) := by
  unfold parameters
  infer_instance

instance : Locates source (statementsInBraces r) := by
  unfold statementsInBraces
  infer_instance

instance (isAsync isGenerator : Bool) : Locates source (functionBody r isAsync isGenerator) := by
  unfold functionBody
  infer_instance

instance (isAsync isGenerator : Bool) : Locates source (signature r isAsync isGenerator) := by
  unfold signature
  infer_instance

instance (isAsync needsName isDeclaration : Bool) :
    Locates source (functionOf r isAsync needsName isDeclaration) := by
  unfold functionOf
  infer_instance

instance (isAsync isGenerator mayLackBody : Bool) :
    Locates source (methodOf r isAsync isGenerator mayLackBody) := by
  unfold methodOf
  infer_instance

instance (typed : Bool) : Locates source (classModifier typed) := by
  unfold classModifier
  infer_instance

instance : Locates source (fieldValue r) := by
  unfold fieldValue
  infer_instance

instance : Locates source (classMember r) := by
  unfold classMember
  dsimp only
  infer_instance

instance (needsName : Bool) : Locates source (classOf r needsName) := by
  unfold classOf
  dsimp only
  infer_instance

/-! ## Markup -/

instance : Locates source markupName := by
  unfold markupName
  refine locates_bind fun c => ?_
  split
  · infer_instance
  · dsimp only
    infer_instance

instance : Locates source memberNames := by
  unfold memberNames
  infer_instance

instance : Locates source tagName := by
  unfold tagName
  infer_instance

instance : Locates source markupString := by
  unfold markupString
  refine locates_bind fun c => ?_
  split
  · infer_instance
  · refine locates_bind fun _ => ?_
    split <;> infer_instance

instance : Locates source (bracedExpression r) := by
  unfold bracedExpression
  infer_instance

instance : Locates source (markupValue r) := by
  unfold markupValue
  infer_instance

instance : Locates source (markupAttribute r) := by
  unfold markupAttribute
  infer_instance

instance : Locates source afterMarkupText := by
  unfold afterMarkupText
  refine locates_bind fun c => ?_
  have hbehind : Located source (Cursor.ofText
      (c.1.behindAt + width (c.1.behind.takeWhile isMarkupText))
      (c.1.behind.dropWhile isMarkupText)) := by
    refine ⟨Cursor.standsIn_ofText (Text.Holds.right ?_)⟩
    rw [List.takeWhile_append_dropWhile]
    exact c.2.areIn.behind
  infer_instance

instance : Locates source (markupChild r) := by
  unfold markupChild
  infer_instance

instance : Locates source (markupChildren r) := by
  unfold markupChildren
  infer_instance

instance : Locates source (markupOf r) := by
  unfold markupOf
  dsimp only
  infer_instance

/-! ## Expressions -/

instance : Locates source (item r) := by
  unfold item
  infer_instance

instance : Locates source (arrayItems r) := by
  unfold arrayItems
  refine locates_bind fun items => ?_
  have hitems : Located source (items.1.filterMap id) := by
    refine ⟨fun e he => ?_⟩
    obtain ⟨o, ho, rfl⟩ := List.mem_filterMap.1 he
    exact items.2.areIn _ ho e rfl
  infer_instance

instance : Locates source methodModifier := by
  unfold methodModifier
  infer_instance

instance : Locates source (property r) := by
  unfold property
  infer_instance

instance : Locates source regex := by
  unfold regex
  refine locates_bind fun c => ?_
  split
  · split <;> infer_instance
  · infer_instance

instance : Locates source (arguments r) := by
  unfold arguments
  infer_instance

instance : Locates source (templateLiteral r) := by
  unfold templateLiteral
  infer_instance

instance (isAsync : Bool) : Locates source (functionExpression r isAsync) := by
  unfold functionExpression
  refine locates_bind fun ⟨(name, body), h⟩ => ?_
  have hbody : Located source (body.getD []) := by
    cases body with
    | none => exact inferInstanceAs (Located source [])
    | some body => exact h.snd.of_some
  infer_instance

instance : Locates source (primary r) := by
  unfold primary
  refine locates_bind fun c => ?_
  split <;> infer_instance

instance : Locates source dotName := by
  unfold dotName
  infer_instance

instance : Locates source (callTypeArguments r) := by
  unfold callTypeArguments
  infer_instance

instance (mayCall : Bool) (e : Expr) (isOptional : Bool) [Located source e] :
    Locates source (suffix r mayCall e isOptional) := by
  unfold suffix
  refine locates_bind fun c => ?_
  split
  all_goals infer_instance

instance (mayCall : Bool) (e : Expr) (isOptional : Bool) (n : Nat) [Located source e] :
    Locates source (suffixes r mayCall e isOptional n) := by
  induction n generalizing e isOptional with
  | zero => exact inferInstanceAs (Locates source refuse)
  | succ n ih =>
    unfold suffixes
    refine locates_bind fun ⟨found, h⟩ => ?_
    cases found with
    | none => infer_instance
    | some found =>
      have hfound := h.of_some.fst
      exact ih _ _

instance (mayCall : Bool) (e : Expr) [Located source e] : Locates source (suffixesOf r mayCall e) := by
  exact ⟨fun hc h => Locates.spec (p := suffixes r mayCall e false _) hc h⟩

instance (n : Nat) : Locates source (construction r n) := by
  induction n with
  | zero => exact inferInstanceAs (Locates source refuse)
  | succ n ih =>
    unfold construction
    dsimp only
    infer_instance

instance : Locates source (importArguments r) := by
  unfold importArguments
  infer_instance

instance : Locates source (chain r) := by
  have hsuper (e : Expr) [he : Located source e] : Located source (match e with
      | .call _ => Expr.other
      | e => e) := by
    split
    · infer_instance
    · exact he
  unfold chain
  infer_instance

instance : Locates source (unaryOf r) := by
  unfold unaryOf
  infer_instance

instance : Locates source operator := by
  unfold operator
  refine locates_bind fun c => ?_
  split
  · split <;> infer_instance
  all_goals infer_instance

instance : Locates source (typeOperator r) := by
  unfold typeOperator
  infer_instance

instance : Locates source (operation r) := by
  unfold operation
  infer_instance

instance : Locates source (binary r) := by
  unfold binary
  infer_instance

instance : Locates source (consequence r) := by
  unfold consequence
  infer_instance

instance : Locates source (conditional r) := by
  unfold conditional
  infer_instance

instance (isAsync : Bool) : Locates source (arrowBody r isAsync) := by
  unfold arrowBody
  infer_instance

instance (isAsync : Bool) : Locates source (arrowSignature r isAsync) := by
  unfold arrowSignature
  infer_instance

instance : Locates source (arrowFunction r) := by
  unfold arrowFunction
  infer_instance

instance : Locates source updateOperator := by
  unfold updateOperator
  refine locates_bind fun c => ?_
  split
  · split <;> infer_instance
  all_goals infer_instance

instance : Locates source (yielding r) := by
  unfold yielding
  infer_instance

instance : Locates source (plainAssignment r) := by
  unfold plainAssignment
  refine locates_bind fun e => locates_bind fun isAssignment => ?_
  split
  · infer_instance
  · refine locates_bind fun found => ?_
    split <;> infer_instance

instance : Locates source (assignmentOf r) := by
  unfold assignmentOf
  infer_instance

instance : Locates source (expressionOf r) := by
  unfold expressionOf
  refine locates_bind fun es => ?_
  split
  next e he =>
    have he : Located source e := es.2.of_mem (by simp [he])
    infer_instance
  next => infer_instance

/-! ## Statements -/

instance (isConstant mayLackValue : Bool) : Locates source (declarator r isConstant mayLackValue) := by
  unfold declarator
  infer_instance

instance : Locates source variableWord := by
  unfold variableWord
  infer_instance

instance : Locates source (variableStatement r) := by
  unfold variableStatement
  infer_instance

instance : Locates source (condition r) := by
  unfold condition
  infer_instance

instance : Locates source (innerStatement r) := by
  unfold innerStatement
  infer_instance

instance : Locates source (forRest r) := by
  unfold forRest
  infer_instance

instance : Locates source (forRange r) := by
  unfold forRange
  infer_instance

instance (mayIterate mayCount : Bool) : Locates source (forTail r mayIterate mayCount) := by
  unfold forTail
  infer_instance

instance : Locates source (forHead r) := by
  unfold forHead
  infer_instance

instance : Locates source (loop r) := by
  unfold loop
  infer_instance

instance : Locates source (choice r) := by
  unfold choice
  infer_instance

instance : Locates source (switchCase r) := by
  unfold switchCase
  infer_instance

instance : Locates source (branches r) := by
  unfold branches
  infer_instance

instance : Locates source (block r) := by
  unfold block
  infer_instance

instance : Locates source (guarded r) := by
  unfold guarded
  infer_instance

instance : Locates source jump := by
  unfold jump
  infer_instance

instance : Locates source (returning r) := by
  unfold returning
  infer_instance

instance : Locates source (throwing r) := by
  unfold throwing
  infer_instance

instance : Locates source (enumMember r) := by
  unfold enumMember
  infer_instance

instance : Locates source (enumeration r) := by
  unfold enumeration
  infer_instance

instance : Locates source (interfaceStatement r) := by
  unfold interfaceStatement
  infer_instance

instance : Locates source (typeAlias r) := by
  unfold typeAlias
  infer_instance

instance : Locates source (namespaceStatement r) := by
  unfold namespaceStatement
  refine locates_bind fun c => locates_bind fun _ => locates_bind fun d => ?_
  dsimp only
  split <;> infer_instance

instance : Locates source (typeStatement r) := by
  unfold typeStatement
  infer_instance

instance : Locates source moduleName := by
  unfold moduleName
  refine locates_bind fun c => ?_
  split <;> infer_instance

instance : Locates source typeModifier := by
  unfold typeModifier
  infer_instance

instance : Locates source importSpecifier := by
  unfold importSpecifier
  infer_instance

instance : Locates source exportSpecifier := by
  unfold exportSpecifier
  infer_instance

instance : Locates source importList := by
  unfold importList
  infer_instance

instance : Locates source sourceName := by
  unfold sourceName
  refine locates_bind fun c => ?_
  dsimp only
  have hvalue : Locates source (do
      match (← cursor).word with
      | .string _ => advance
      | _ => refuse) := by
    refine locates_bind fun d => ?_
    split <;> infer_instance
  split <;> infer_instance

instance : Locates source fromSource := by
  unfold fromSource
  infer_instance

instance : Locates source namespaceImport := by
  unfold namespaceImport
  infer_instance

instance : Locates source importClause := by
  unfold importClause
  infer_instance

instance : Locates source importAlias := by
  unfold importAlias
  refine locates_bind fun _ => locates_bind fun _ => locates_bind fun _ => locates_bind fun b => ?_
  split
  · refine locates_bind fun c => ?_
    dsimp only
    split <;> infer_instance
  · infer_instance

instance : Locates source importStatement := by
  unfold importStatement
  refine locates_bind fun _ => locates_bind fun _ => locates_bind fun _ => locates_bind fun s => ?_
  dsimp only
  refine locates_bind fun c => ?_
  split <;> infer_instance

instance (needsName : Bool) : Locates source (classStatement r needsName) := by
  unfold classStatement
  infer_instance

instance (needsName : Bool) : Locates source (functionStatement r needsName) := by
  unfold functionStatement
  infer_instance

instance : Locates source (declaration r) := by
  unfold declaration
  refine locates_bind fun c => locates_bind fun s => ?_
  dsimp only
  have hfunction : Locates source (do
      let (name, body) ← functionStatement r true
      return Stmt.function name body) := by
    refine locates_bind fun ⟨(name, body), h⟩ => ?_
    have hbody := h.snd
    infer_instance
  infer_instance

instance : Locates source (ambientDeclaration r) := by
  unfold ambientDeclaration
  infer_instance

instance : Locates source (anyDeclaration r) := by
  unfold anyDeclaration
  infer_instance

instance : Locates source (defaultExport r) := by
  unfold defaultExport
  refine locates_bind fun c => locates_bind fun s => ?_
  dsimp only
  have hfunction : Locates source (do
      let (_, body) ← functionStatement r false
      return DefaultExport.function body) := by
    refine locates_bind fun ⟨(name, body), h⟩ => ?_
    have hbody := h.snd
    infer_instance
  infer_instance

instance : Locates source exportList := by
  unfold exportList
  infer_instance

instance : Locates source (exportStatement r) := by
  unfold exportStatement
  infer_instance

instance : Locates source (expressionStatement r) := by
  unfold expressionStatement
  infer_instance

instance : Locates source (plainStatement r) := by
  unfold plainStatement
  infer_instance

instance : Locates source (statementOf r) := by
  unfold statementOf
  infer_instance

/-! ## All phrases -/

/-- **All phrases are read in their places.** -/
theorem locate_phrases (source : Text) (n : Nat) : (phrases n).Locate source := by
  induction n with
  | zero =>
    have hnone {α : Type} [HasPlaces α] : Locates source (refuse : Rule α) := inferInstance
    exact ⟨hnone, hnone, hnone, hnone, hnone, hnone, hnone⟩
  | succ n ih =>
    unfold phrases
    dsimp only
    constructor <;> infer_instance

/-- The statements of a module stand in it. -/
theorem located_readModule? {s : Text} {statements : List Stmt}
    (h : readModule? s = some statements) : Located s statements := by
  have hread {typed : Bool} (h : statements? typed s = some statements) : Located s statements := by
    obtain ⟨⟨as, d⟩, hp, rfl⟩ := Option.map_eq_some_iff.1 h
    have hphrases := locate_phrases s (depthBound s)
    have hstart : Located s (Cursor.ofModule s) := ⟨Cursor.standsIn_ofModule s⟩
    exact (Locates.spec hstart hp).1
  obtain h | ⟨-, h⟩ := Option.or_eq_some_iff.1 h
  · exact hread h
  · exact hread h

end MarkupSync.Script
