import MipsBackend.Proofs.Lowering.Literals
import MipsBackend.Proofs.Lowering.Uniqueness
import MipsBackend.Proofs.Storage.DataObjects
import MipsBackend.Proofs.Storage.Nesting

/-!
# Interned string literals

Planning walks over the string literals of all functions and gives a label to each that it has not
met yet. The label has the number of the different literals that were met before (`FirstUse`), so the
literals and the first labels correspond to each other, and each has one object in the data
(`Program.strings_interned`).
-/

namespace MipsBackend

/-! ## First uses -/

/-- The text is used, and the number is that of the different texts in front of its first use. -/
def FirstUse (texts : List String) (text : String) (number : Nat) : Prop :=
  ∃ before after, texts = before ++ text :: after ∧ text ∉ before ∧
    number = before.eraseDups.length

theorem FirstUse.mem {texts : List String} {text : String} {number : Nat}
    (first : FirstUse texts text number) : text ∈ texts := by
  obtain ⟨before, after, rfl, -, -⟩ := first
  exact List.mem_append_right before List.mem_cons_self

/-- A text that comes last is numbered only if it is new. -/
theorem firstUse_snoc {texts : List String} {last text : String} {number : Nat} :
    FirstUse (texts ++ [last]) text number ↔
      FirstUse texts text number ∨
        last ∉ texts ∧ text = last ∧ number = texts.eraseDups.length := by
  constructor
  · rintro ⟨before, after, split, new, rfl⟩
    rcases List.eq_nil_or_concat' after with rfl | ⟨middle, other, rfl⟩
    · obtain ⟨rfl, same⟩ := List.append_inj' split rfl
      obtain rfl := List.head_eq_of_cons_eq same
      exact .inr ⟨new, rfl, rfl⟩
    · rw [← List.cons_append, ← List.append_assoc] at split
      exact .inl ⟨before, middle, (List.append_inj' split rfl).1, new, rfl⟩
  · rintro (⟨before, after, rfl, new, rfl⟩ | ⟨new, rfl, rfl⟩)
    · exact ⟨before, after ++ [last], by simp, new, rfl⟩
    · exact ⟨texts, [], rfl, new, rfl⟩

theorem firstUse_iff {texts : List String} {text : String} {number : Nat} :
    FirstUse texts text number ↔ texts.eraseDups[number]? = some text := by
  induction texts using List.reverseRecOn with
  | nil => simp [FirstUse]
  | append_singleton texts last ih =>
    rw [firstUse_snoc, ih, eraseDups_snoc]
    split
    · next known => simp [known]
    · next new =>
      rw [List.getElem?_append, List.getElem?_singleton]
      constructor
      · rintro (here | ⟨-, rfl, rfl⟩)
        · rwa [if_pos (List.getElem?_eq_some_iff.1 here).1]
        · simp
      · intro here
        split at here
        · exact .inl here
        · split at here
          · cases here
            exact .inr ⟨new, rfl, by omega⟩
          · cases here

/-! ## Labels -/

namespace MemoryPlan

/-- The plan has labelled the texts in the order of their first uses. -/
structure Interns (texts : List String) (plan : MemoryPlan) : Prop where
  count : plan.strings.size = texts.eraseDups.length
  label : ∀ text label, plan.strings[text]? = some label ↔
    ∃ number, FirstUse texts text number ∧ label = .string number

variable {layout : Layout} {promotion : Promotion} {texts : List String} {plan : MemoryPlan}

theorem interns_empty : empty.Interns [] := by
  constructor <;> simp [empty, FirstUse]

theorem Interns.mem_strings (interns : plan.Interns texts) (text : String) :
    text ∈ plan.strings ↔ text ∈ texts := by
  rw [Std.ExtTreeMap.mem_iff_isSome_getElem?, Option.isSome_iff_exists, ← List.mem_eraseDups,
    List.mem_iff_getElem?]
  simp only [interns.label, firstUse_iff]
  exact ⟨fun ⟨_, number, here, _⟩ => ⟨number, here⟩, fun ⟨number, here⟩ => ⟨_, number, here, rfl⟩⟩

theorem Interns.intern (interns : plan.Interns texts) (text : String) :
    (plan.intern text).Interns (texts ++ [text]) := by
  unfold MemoryPlan.intern
  split
  · next known =>
    have listed := (interns.mem_strings text).1 known
    refine ⟨?_, fun other label => ?_⟩
    · rw [eraseDups_snoc, if_pos listed, List.append_nil, interns.count]
    · simp only [interns.label, firstUse_snoc, listed, not_true_eq_false, false_and, or_false]
  · next fresh =>
    have new := mt (interns.mem_strings text).2 fresh
    refine ⟨?_, fun other label => ?_⟩
    · rw [Std.ExtTreeMap.size_insert, if_neg (by simpa using fresh), eraseDups_snoc, if_neg new,
        List.length_append, interns.count]
      rfl
    · rw [Std.ExtTreeMap.getElem?_insert]
      simp only [firstUse_snoc, new, not_false_eq_true, true_and, Std.LawfulEqCmp.compare_eq_iff_eq,
        interns.count]
      split
      · next same =>
        subst same
        constructor
        · intro here
          cases here
          exact ⟨_, .inr ⟨rfl, rfl⟩, rfl⟩
        · rintro ⟨number, before | ⟨-, rfl⟩, rfl⟩
          · exact absurd before.mem new
          · rfl
      · next other =>
        simp only [interns.label, Ne.symm other, false_and, or_false]

theorem Interns.internAll (interns : plan.Interns texts) (more : List String) :
    (more.foldl MemoryPlan.intern plan).Interns (texts ++ more) := by
  induction more generalizing plan texts with
  | nil => rwa [List.append_nil]
  | cons text rest ih =>
    have all := ih (interns.intern text)
    rwa [List.append_assoc] at all

theorem Interns.addDecl (interns : plan.Interns texts) {after : MemoryPlan} {decl : Decl}
    (added : plan.addDecl layout promotion decl = .ok after) :
    after.Interns (texts ++ declTexts decl) := by
  cases decl with
  | struct decl | funDecl decl =>
    cases added
    rwa [declTexts, List.append_nil]
  | var decl =>
    obtain ⟨size, -, joins⟩ := bind_eq_ok.1 added
    cases joins
    rw [declTexts, List.append_nil]
    exact ⟨interns.count, interns.label⟩
  | funDef fn =>
    obtain ⟨result, params, locals, space, -, -, -, rfl⟩ := addFunction_eq_ok added
    refine Interns.internAll ?_ fn.body.strings
    exact ⟨interns.count, interns.label⟩

theorem Interns.addDecls (interns : plan.Interns texts) {decls : List Decl} {after : MemoryPlan}
    (added : decls.foldlM (MemoryPlan.addDecl layout promotion) plan = .ok after) :
    after.Interns (texts ++ decls.flatMap declTexts) := by
  induction decls generalizing plan texts with
  | nil =>
    cases added
    rwa [List.flatMap_nil, List.append_nil]
  | cons decl rest ih =>
    rw [List.foldlM_cons] at added
    obtain ⟨next, first, others⟩ := bind_eq_ok.1 added
    have all := ih (interns.addDecl first) others
    rwa [List.append_assoc] at all

end MemoryPlan

namespace Program

variable {program : Program} {promotion : Promotion} {plan : MemoryPlan}

/-- The string literals of the functions, in the order in which they stand there. -/
def texts (program : Program) : List String :=
  program.functions.flatMap fun fn => fn.body.strings

theorem interns_memoryPlan (planned : program.memoryPlan promotion = .ok plan) :
    plan.Interns program.texts := by
  have interns := MemoryPlan.interns_empty.addDecls planned
  rwa [List.nil_append, program.texts_functions] at interns

theorem mem_texts_iff {text : String} : text ∈ program.texts ↔
    ∃ fn ∈ program.functions, ∃ ty, fn.HasExpr (.strLit ty text) := by
  simp only [texts, List.mem_flatMap, Block.strings, List.mem_filterMap, FunDef.mem_exprs_iff]
  refine exists_congr fun fn => and_congr_right fun _ => ?_
  constructor
  · rintro ⟨e, stands, literal⟩
    cases e with
    | strLit ty found =>
      cases literal
      exact ⟨ty, stands⟩
    | _ => cases literal
  · rintro ⟨ty, stands⟩
    exact ⟨_, stands, rfl⟩

/-- What planning does with string literals. -/
structure StringsInterned (program : Program) (plan : MemoryPlan) : Prop where
  /-- The literals are what stands somewhere in a function, each once. -/
  literal : ∀ text, text ∈ program.literals ↔
    ∃ fn ∈ program.functions, ∃ ty, fn.HasExpr (.strLit ty text)
  distinct : program.literals.Nodup
  /-- They are met function after function, an expression before its operands. -/
  functions : program.texts = program.functions.flatMap fun fn =>
    (fn.body.stmts.flatMap Stmt.exprs).filterMap Expr.stringLiteral?
  stmts : ∀ stmt : Stmt, stmt.exprs =
    stmt.head?.toList.flatMap Expr.subterms ++ stmt.inner.flatMap Stmt.exprs
  exprs : ∀ e : Expr, e.subterms = e :: e.operands.flatMap Expr.subterms
  /-- The literals and no other texts have labels. -/
  labelled : ∀ text, text ∈ plan.strings ↔ text ∈ program.literals
  numbered : ∀ (text : String) (label : Label), plan.strings[text]? = some label ↔
    ∃ number, FirstUse program.texts text number ∧ label = .string number
  within : ∀ (text : String) (label : Label), plan.strings[text]? = some label →
    ∃ number < program.literals.length, label = .string number
  onto : ∀ number < program.literals.length,
    ∃! text : String, plan.strings[text]? = some (.string number)
  injective : ∀ (first second : String) (label : Label), plan.strings[first]? = some label →
    plan.strings[second]? = some label → first = second
  /-- The data are objects of globals and literals, one of each literal with its number. -/
  data : ∃ objects : List DataObject, plan.data = objects.flatMap DataObject.items ∧
    objects.filterMap DataObject.global? = program.globals ∧
    objects.filterMap DataObject.string? = program.literals.zipIdx ∧
    objects.filterMap DataObject.slot? = []

theorem interned_memoryPlan (planned : program.memoryPlan promotion = .ok plan) :
    program.StringsInterned plan := by
  have interns := interns_memoryPlan planned
  obtain ⟨objects, lays⟩ := lays_memoryPlan planned
  have numbered : ∀ (text : String) (number : Nat), plan.strings[text]? = some (.string number) ↔
      program.literals[number]? = some text := by
    intro text number
    simp only [interns.label, Label.string_injective.eq_iff, exists_eq_right', firstUse_iff]
    rfl
  have known : ∀ (text : String) (label : Label), plan.strings[text]? = some label →
      ∃ number, program.literals[number]? = some text ∧ label = .string number := by
    intro text label found
    obtain ⟨number, first, same⟩ := (interns.label text label).1 found
    exact ⟨number, firstUse_iff.1 first, same⟩
  refine
    { literal := fun text => ?_
      distinct := nodup_eraseDups _
      functions := by simp only [texts, Block.strings, Block.exprs, Stmt.listExprs_eq]
      stmts := Stmt.exprs_eq
      exprs := Expr.subterms_eq
      labelled := fun text => ?_
      numbered := interns.label
      within := fun text label found => ?_
      onto := fun number below => ?_
      injective := fun first second label one other => ?_
      data := ⟨objects, lays.data, lays.globals, lays.strings, lays.slots⟩ }
  · rw [literals, List.mem_eraseDups]
    exact mem_texts_iff
  · rw [interns.mem_strings, literals, List.mem_eraseDups]
    rfl
  · obtain ⟨number, here, same⟩ := known text label found
    exact ⟨number, (List.getElem?_eq_some_iff.1 here).1, same⟩
  · refine ⟨program.literals[number], (numbered _ _).2 (List.getElem?_eq_getElem below), ?_⟩
    intro text found
    rw [numbered, List.getElem?_eq_getElem below] at found
    exact (Option.some.inj found).symm
  · obtain ⟨number, here, rfl⟩ := known first label one
    exact Option.some.inj (here.symm.trans ((numbered second number).1 other))

/-- String literals are interned one to one, in the order in which they are met, and whatever code
generation stops at, it is no literal without a label. -/
theorem strings_interned (planned : program.memoryPlan promotion = .ok plan) :
    program.StringsInterned plan ∧ ∀ entry violation,
      program.generate entry = .error violation → violation.kind ≠ "UninternedString" := by
  refine ⟨interned_memoryPlan planned, fun entry violation fails same => ?_⟩
  have finds := program.findsTexts_generate entry
  cases violation with
  | uninternedString text => exact finds text fails
  | _ => simp [Violation.kind] at same

/-- Two functions that print literals, one of them the same; another literal is only indexed. -/
def greetings : Program :=
  let text : Ty := .pointer .char
  let say (value : Expr) : Stmt := .eval (.call .void "print_s" [value])
  { decls :=
      [ .funDecl
          { name := "print_s", ret := .void, params := [{ id := 1, name := "s", ty := text }] },
        .funDef
          { name := "greet", ret := .void, params := []
            body := { vars := [], stmts := [say (.cast text (.ofString "hello"))] } },
        .funDef
          { name := "main", ret := .int, params := []
            body :=
              { vars := []
                stmts :=
                  [ .branch (.elementOf (.ofString "yes") (.ofInt 0))
                      (say (.cast text (.ofString "hello")))
                      (some (say (.cast text (.ofString "no")))),
                    .ret (some (.ofInt 0)) ] } } ] }

theorem strings_interned_greetings : ∃ plan,
    greetings.memoryPlan (greetings.promotion 0).1 = .ok plan ∧ greetings.StringsInterned plan ∧
      greetings.literals = ["hello", "yes", "no"] ∧
      plan.strings["yes"]? = some (.string 1) ∧
      (greetings.generate "main").toBool = true ∧
      ∀ entry violation, greetings.generate entry = .error violation →
        violation.kind ≠ "UninternedString" := by
  have succeeds : (greetings.memoryPlan (greetings.promotion 0).1).toBool = true := by
    decide +kernel
  obtain ⟨plan, planned⟩ := exists_ok_of_toBool succeeds
  obtain ⟨interned, finds⟩ := strings_interned planned
  have first : FirstUse greetings.texts "yes" 1 :=
    ⟨["hello"], ["hello", "no"], by decide, by decide, by decide⟩
  exact ⟨plan, planned, interned, by decide, (interned.numbered _ _).2 ⟨1, first, rfl⟩,
    by decide +kernel, finds⟩

end Program

end MipsBackend
