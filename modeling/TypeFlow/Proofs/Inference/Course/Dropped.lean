import TypeFlow.Proofs.Inference.Composed.Walk
import TypeFlow.Proofs.Inference.Reached
import TypeFlow.Tree.Builder

/-!
# Statements that are dropped

Inference of a program is a course, from the lowered tree to its end (`Phase.follows_all`). Along it
a sequence only loses the statements after one of its own, which never completed as far as was known
when they were dropped (`Course.sequence_cases`); it is not looked at again when more is known
(`Session.infer_drops`).
-/

namespace TypeFlow

namespace Program
variable {p p' : Program} {id other : ExprId} {items : List ExprId}

theorem construct_truncate_self (hc : p.construct id = .sequence items) (count : Nat) :
    (p.truncate id count).construct id = .sequence (items.take count) := by
  rw [Program.construct, expr] at hc
  simp only [Program.construct, expr, truncate, Array.getElem?_modify, if_pos]
  rcases he : p.exprs[id.index]? with _ | ⟨construct, location, node⟩ <;> rw [he] at hc
  · cases hc
  · replace hc : construct = .sequence items := hc
    subst hc
    rfl

theorem construct_truncate_of_ne (hne : other ≠ id) (count : Nat) :
    (p.truncate id count).construct other = p.construct other := by
  have hindex : ¬ id.index = other.index :=
    fun heq => hne (by cases id; cases other; cases heq; rfl)
  simp only [construct, expr, truncate, Array.getElem?_modify, if_neg hindex]

theorem index_lt_of_sequence (hc : p.construct id = .sequence items) : id.index < p.exprs.size := by
  refine Nat.lt_of_not_le fun hle => ?_
  rw [construct, expr, Array.getElem?_eq_none hle] at hc
  cases hc

end Program

namespace Infer
variable {setting : Setting} {tools : Set Toolchain} {s s' : WalkState} {deed : Deed}
  {deeds : List Deed} {id : ExprId}
  {items : List ExprId}

/-- When it last loses statements on the course, at `m`, the sequence `id` is left with those of
`items` up to `statement`, which has the type `NoReturn` at that moment. -/
structure LastDrop (tools : Set Toolchain) (id : ExprId) (items : List ExprId)
    (s : WalkState) (deeds : List Deed)
    (s' : WalkState) (statement : ExprId) (m : WalkState) : Prop where
  moment : ∃ before after m', deeds = before ++ .drops id statement :: after ∧
    (∀ other, .drops id other ∉ after) ∧
    Course tools s before m ∧ Change tools (.drops id statement) m m' ∧ Course tools m' after s'
  left : ∃ position, items[position]? = some statement ∧ position + 1 < items.length ∧
    s'.program.construct id = .sequence (items.take (position + 1))
  noReturn : m.program.typeOf statement = some .noReturn

theorem Change.noReturn_of_drops {statement : ExprId}
    (h : Change tools (.drops id statement) s s') :
    s.program.typeOf statement = some .noReturn := by
  cases h
  assumption

/-- A sequence stays as it is, unless the change drops statements from it. -/
theorem Change.sequence_cases (h : Change tools deed s s')
    (hc : s.program.construct id = .sequence items) :
    (∀ statement, deed ≠ .drops id statement) ∧ s'.program.construct id = .sequence items ∨
    ∃ position statement, deed = .drops id statement ∧ items[position]? = some statement ∧
      position + 1 < items.length ∧
      s'.program.construct id = .sequence (items.take (position + 1)) := by
  have hkeeps : s'.program.exprs = s.program.exprs →
      s'.program.construct id = .sequence items := fun hexprs => by
    rw [← hc, Program.construct, Program.construct, Program.expr, Program.expr, hexprs]
  cases h with
  | add _ construct location =>
    refine .inl ⟨by rintro _ ⟨⟩, ?_⟩
    show ((s.program.addExpr construct location).2).construct id = _
    have hid := Program.index_lt_of_sequence hc
    rw [← hc, Program.construct, Program.construct, Program.expr, Program.expr, Program.addExpr]
    dsimp only
    rw [Array.getElem?_push_lt hid, Array.getElem?_eq_getElem hid]
  | @drop _ other statement items' position hother hstatement hlt =>
    by_cases heq : other = id
    · subst heq
      cases hc.symm.trans hother
      exact .inr ⟨position, statement, rfl, hstatement, hlt, Program.construct_truncate_self hc _⟩
    · refine .inl ⟨fun _ hdeed => heq (by cases hdeed; rfl), ?_⟩
      rw [WalkState.withProgram_program, Program.construct_truncate_of_ne (Ne.symm heq), hc]
  | note hnote => cases hnote <;> exact .inl ⟨by rintro _ ⟨⟩, hkeeps rfl⟩
  | _ => exact .inl ⟨by rintro _ ⟨⟩, hkeeps rfl⟩

/-- By induction on the course. If statements are dropped more than once, the last time counts. -/
theorem Course.sequence_cases (h : Course tools s deeds s')
    (hc : s.program.construct id = .sequence items) :
    (∀ statement, .drops id statement ∉ deeds) ∧ s'.program.construct id = .sequence items ∨
    ∃ statement m, LastDrop tools id items s deeds s' statement m := by
  induction h generalizing items with
  | nil => exact .inl ⟨nofun, hc⟩
  | @cons s s₁ s' deed deeds hchange hrest ih =>
    obtain ⟨hnot, hc₁⟩ | ⟨position, statement, rfl, hstatement, hlt, hc₁⟩ :=
      hchange.sequence_cases hc
    · obtain ⟨hnone, hc'⟩ | ⟨statement, m, ⟨before, after, m', rfl, hafter, hbefore, hdrop⟩,
        hleft, hnever⟩ := ih hc₁
      · refine .inl ⟨fun statement hmem => ?_, hc'⟩
        rcases List.mem_cons.mp hmem with heq | hmem
        · exact hnot statement heq.symm
        · exact hnone statement hmem
      · exact .inr ⟨statement, m, ⟨deed :: before, after, m', rfl, hafter, .cons hchange hbefore,
          hdrop⟩, hleft, hnever⟩
    · obtain ⟨hnone, hc'⟩ | ⟨last, m, ⟨before, after, m', rfl, hafter, hbefore, hdrop⟩,
        hleft, hnever⟩ := ih hc₁
      · exact .inr ⟨statement, s, ⟨[], deeds, s₁, rfl, hnone, .nil s, hchange, hrest⟩,
          ⟨position, hstatement, hlt, hc'⟩, hchange.noReturn_of_drops⟩
      · obtain ⟨position', hlast, hlt', hc'⟩ := hleft
        have hle : position' + 1 < position + 1 := Nat.lt_of_lt_of_le hlt' (List.length_take_le ..)
        rw [List.getElem?_take_of_lt (Nat.lt_of_succ_lt hle)] at hlast
        rw [List.take_take, Nat.min_eq_left (Nat.le_of_lt hle)] at hc'
        exact .inr ⟨last, m, ⟨_ :: before, after, m', rfl, hafter, .cons hchange hbefore, hdrop⟩,
          ⟨position', hlast, Nat.lt_trans hle hlt, hc'⟩, hnever⟩

end Infer

/-! ### Inference of a program -/

namespace Phase
open Infer
variable {α β : Type} {setting : Setting} {s : Session}

/-- The phase is a course, at the top level of the program, however it ends. -/
def Follows (setting : Setting) (x : Phase α) (s : Session) : Prop :=
  ∃ deeds, Course {setting.tools} ⟨s, {}⟩ deeds ⟨((ExceptT.run x).run s).2, {}⟩

theorem follows_ofStep {x : Infer α} (h : Takes setting ⟨s, {}⟩ x) :
    Follows setting (ofStep setting x) s := by
  obtain ⟨⟨deeds, hcourse⟩, -⟩ := h
  exact ⟨_, hcourse.append (.single (.frame _ {}))⟩

theorem Follows.bind {x : Phase α} {f : α → Phase β} (hx : Follows setting x s)
    (hf : ∀ a s', Follows setting (f a) s') : Follows setting (x >>= f) s := by
  obtain ⟨deeds, hcourse⟩ := hx
  rw [Follows, WalkState.Reached.run_bind_phase]
  rcases ho : (ExceptT.run x).run s with ⟨e | a, s'⟩ <;> rw [ho] at hcourse
  · exact ⟨deeds, hcourse⟩
  · obtain ⟨deeds', hcourse'⟩ := hf a s'
    exact ⟨_, hcourse.append hcourse'⟩

/-- All that comes after the tree has been lowered. -/
theorem follows_all (htidy : setting.tools.Tidy) (root : ExprId) : Follows setting (do
    walk setting root
    constants setting
    settle setting.options root) s := by
  have hconstants : ∀ s, Follows setting (constants setting) s := by
    intro s
    unfold constants
    split
    · exact follows_ofStep (takes_evaluateRemaining htidy depthBudget)
    · exact ⟨[], .nil _⟩
  refine (follows_ofStep (takes_walk htidy depthBudget root _)).bind fun _ s =>
    (hconstants s).bind fun _ s => ?_
  exact ⟨_, .single (.settle ⟨s, {}⟩)⟩

/-- From the lowered tree on, whether it could be lowered completely or not. -/
theorem course_all (htidy : setting.tools.Tidy) (tree : Tree) :
    ∃ deeds, Course {setting.tools} (.lowered tree) deeds
      ⟨((ExceptT.run (all setting tree)).run {}).2, {}⟩ := by
  have hlower : (ExceptT.run (lower setting tree)).run ({} : Session) =
      (((lowerTree tree).outcome setting ⟨{}, {}⟩).1, (WalkState.lowered tree).session) := by
    show (((lowerTree tree).outcome setting ⟨{}, {}⟩).1,
      ((lowerTree tree).outcome setting ⟨{}, {}⟩).2.session) = _
    unfold lowerTree
    rw [outcome_bind, outcome_updateProgram]
    dsimp only
    split <;> rfl
  unfold all
  rw [WalkState.Reached.run_bind_phase, hlower]
  rcases (lowerTree tree).outcome setting ⟨{}, {}⟩ with ⟨_ | root, _⟩
  · exact ⟨[], .nil _⟩
  · exact follows_all htidy root

end Phase

namespace Session
open Infer
variable {setting : Setting}

/-- While a tree is inferred, however that ends, a sequence that there is at any moment only loses
statements in one way: it is left with those up to a statement which had the type `NoReturn` at the
moment when the others were dropped. Otherwise it keeps them all. -/
theorem infer_drops (htidy : setting.tools.Tidy) {tree : Tree} {result : Except Failure Inferred}
    {s' : Session} (h : ({} : Session).infer setting tree = (result, s')) :
    ∃ deeds, Course {setting.tools} (.lowered tree) deeds ⟨s', {}⟩ ∧ ∀ before after m id items,
      deeds = before ++ after → Course {setting.tools} (.lowered tree) before m →
      Course {setting.tools} m after ⟨s', {}⟩ → m.program.construct id = .sequence items →
        (∀ statement, .drops id statement ∉ after) ∧ s'.program.construct id = .sequence items ∨
        ∃ statement m', LastDrop {setting.tools} id items m after ⟨s', {}⟩ statement m' := by
  obtain ⟨deeds, hcourse⟩ := Phase.course_all htidy tree
  rw [show (ExceptT.run (Phase.all setting tree)).run ({} : Session) = _ from h] at hcourse
  exact ⟨deeds, hcourse, fun _ _ _ _ _ _ _ hafter hc => hafter.sequence_cases hc⟩

/-- `x; if false then ((if false then while true else x); 'c') else x = 1`. -/
def typedLater : Tree := .sequence
  [.var "x", .conditional (.bool false)
    (some (.sequence [.conditional (.bool false) (some (.loop (.bool true) none))
      (some (.var "x")), .char 'c']))
    (some (.assign (.var "x") (.int32 1)))]

theorem sequence_typedLater : (({} : Session).infer ⟨.standard, {}⟩ typedLater).1.isOk = true ∧
    (WalkState.lowered typedLater).program.construct ⟨8⟩ = .sequence [⟨6⟩, ⟨7⟩] ∧
    (({} : Session).infer ⟨.standard, {}⟩ typedLater).2.program.construct ⟨8⟩ = .sequence [⟨6⟩] ∧
    (({} : Session).infer ⟨.standard, {}⟩ typedLater).2.program.typeOf ⟨6⟩ =
      some .int32 := by decide +kernel

/-- The inner conditional had the type `NoReturn` at some moment. -/
theorem infer_drops_typedLater : Toolchain.standard.Tidy ∧ ∃ result s',
    ({} : Session).infer ⟨.standard, {}⟩ typedLater = (result, s') ∧
    s'.program.construct ⟨8⟩ = .sequence [⟨6⟩] ∧
      ∃ deeds m, Course {.standard} (.lowered typedLater) deeds m ∧
      m.program.typeOf ⟨6⟩ = some .noReturn := by
  obtain ⟨-, hc, hc', -⟩ := sequence_typedLater
  rcases h : ({} : Session).infer ⟨.standard, {}⟩ typedLater with ⟨result, s'⟩
  rw [h] at hc'
  obtain ⟨deeds, hcourse, hall⟩ := infer_drops Toolchain.tidy_standard h
  refine ⟨Toolchain.tidy_standard, result, s', rfl, hc', ?_⟩
  obtain ⟨-, hsame⟩ | ⟨statement, m, ⟨earlier, _, _, -, -, hearlier, -⟩,
    ⟨position, hstatement, hlt, -⟩, hnever⟩ :=
    hall [] deeds _ ⟨8⟩ _ rfl (.nil _) hcourse hc
  · rw [hc'] at hsame
    cases hsame
  · obtain rfl : position = 0 :=
      Nat.eq_zero_of_le_zero (Nat.le_of_lt_succ (Nat.lt_of_succ_lt_succ hlt))
    cases hstatement
    exact ⟨earlier, m, hearlier, hnever⟩

/-- `'c'` has been dropped while `x` had no type, and in the end the statement before it is an
`Int32`. -/
theorem dropped_typedLater :
    ∃ inferred s', ({} : Session).infer ⟨.standard, {}⟩ typedLater = (.ok inferred, s') ∧
    (WalkState.lowered typedLater).program.construct ⟨8⟩ = .sequence [⟨6⟩, ⟨7⟩] ∧
    s'.program.construct ⟨8⟩ = .sequence [⟨6⟩] ∧ s'.program.typeOf ⟨6⟩ = some .int32 ∧
    s'.program.typeOf ⟨6⟩ ≠ some .noReturn := by
  obtain ⟨hok, hc, hc', htype⟩ := sequence_typedLater
  rcases h : ({} : Session).infer ⟨.standard, {}⟩ typedLater with ⟨_ | inferred, s'⟩ <;>
    rw [h] at hok hc' htype
  · cases hok
  · exact ⟨inferred, s', rfl, hc, hc', htype, by rw [htype]; decide⟩

end Session

end TypeFlow
