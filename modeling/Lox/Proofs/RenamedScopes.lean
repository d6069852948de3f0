import Mathlib
import Lox.Proofs.Renaming
import Lox.Proofs.Resolving

/-!
# Renaming keeps distances

A program in which a local variable is renamed is accepted like the program before, with the same
distances. The two walks go side by side (`Walk.Renamed`): their scopes differ only in that names
are swapped in the marked ones, and the new name is in none of the scopes of the walk before.

So no name is captured. On the way out to its scope, a name of the walk before meets neither itself
nor the new name, and these are all it can be swapped with (`Scopes.Renamed.get?_eq_none`).

* `Scopes.Renamed.distance?_respell`: the distance of a name stays the same;
* `Program.resolve_of_renamed`: so do the distances of a program.
-/

namespace Lox

/-- The other scopes around, without the innermost one. -/
def Marks.tail (ρ : Marks) : Marks := fun distance => ρ (distance + 1)

/-- Scopes with names swapped in marked ones. The new name is not among those before. -/
inductive Scopes.Renamed (R : Renaming) : Marks → Scopes → Scopes → Prop
  | nil (ρ : Marks) : Scopes.Renamed R ρ [] []
  | cons {ρ : Marks} {scope scope' : Scope} {outer outer' : Scopes} :
      (∀ x, scope'.get? (R.swap (ρ 0) x) = scope.get? x) → scope.get? R.new = none →
      Scopes.Renamed R ρ.tail outer outer' →
      Scopes.Renamed R ρ (scope :: outer) (scope' :: outer')

variable {R : Renaming} {ρ : Marks}

/-- A name that is swapped in one scope and looked for in another is found as itself, or as the new
    name. -/
theorem Renaming.swap_swap_of_ne (R : Renaming) (mark mark' : Bool) {x : String} (hx : x ≠ R.new) :
    R.swap mark (R.swap mark' x) = x ∨ R.swap mark (R.swap mark' x) = R.new := by
  by_cases ho : x = R.old
  · subst ho
    have hold : R.swap true R.old = R.new := Equiv.swap_apply_left ..
    have hnew : R.swap true R.new = R.old := Equiv.swap_apply_right ..
    cases mark <;> cases mark' <;> simp [hold, hnew]
  · exact .inl (by rw [R.swap_of_ne mark' ho hx, R.swap_of_ne mark ho hx])

theorem Renaming.exists_respell (R : Renaming) (ρ : Marks) (id : Nat) (name : Lexeme) :
    ∃ mark, R.respell ρ id name = name.respell R mark := by
  rw [respell]
  split
  · exact ⟨_, rfl⟩
  · exact ⟨false, rfl⟩

namespace Scopes

variable {scopes scopes' outer : Scopes} {scope : Scope}

theorem distance?_cons (scope : Scope) (outer : Scopes) (x : String) :
    distance? (scope :: outer) x =
      if scope.contains x then some 0 else (distance? outer x).map (· + 1) :=
  List.findIdx?_cons

variable {x : String}

/-- A name that a scope has not declared is not captured there. -/
theorem get?_eq_none {mark : Bool} {scope' : Scope}
    (hs : ∀ x, scope'.get? (R.swap mark x) = scope.get? x) (hnew : scope.get? R.new = none)
    (hx : x ≠ R.new) (hnone : scope.get? x = none) (mark' : Bool) :
    scope'.get? (R.swap mark' x) = none := by
  have h := hs (R.swap mark (R.swap mark' x))
  rw [R.swap_swap] at h
  rw [h]
  rcases R.swap_swap_of_ne mark mark' hx with heq | heq
  · rw [heq, hnone]
  · rw [heq, hnew]

/-- A local name keeps its distance. -/
theorem Renamed.distance?_eq_some (h : Renamed R ρ scopes scopes') (hx : x ≠ R.new) {distance : Nat}
    (hd : distance? scopes x = some distance) :
    distance? scopes' (R.swap (ρ distance) x) = some distance := by
  induction h generalizing distance with
  | nil ρ => cases hd
  | @cons ρ scope scope' outer outer' hs hnew _ ih =>
    rw [distance?_cons] at hd ⊢
    by_cases hc : scope.contains x
    · rw [if_pos hc] at hd
      cases hd
      rw [if_pos (by rwa [Bindings.contains, hs])]
    · rw [if_neg hc] at hd
      obtain ⟨further, hfurther, rfl⟩ := Option.map_eq_some_iff.1 hd
      have hnone : scope.get? x = none := by simpa [Bindings.contains] using hc
      have hnone' := get?_eq_none hs hnew hx hnone (ρ (further + 1))
      rw [if_neg (by simp [Bindings.contains, hnone'])]
      exact Option.map_eq_some_iff.2 ⟨further, ih hfurther, rfl⟩

/-- A global name stays global. -/
theorem Renamed.distance?_eq_none (h : Renamed R ρ scopes scopes') (hx : x ≠ R.new)
    (hd : distance? scopes x = none) : distance? scopes' x = none := by
  induction h with
  | nil ρ => rfl
  | @cons ρ scope scope' outer outer' hs hnew _ ih =>
    rw [distance?_cons] at hd ⊢
    by_cases hc : scope.contains x
    · rw [if_pos hc] at hd
      cases hd
    · rw [if_neg hc] at hd
      have hnone : scope.get? x = none := by simpa [Bindings.contains] using hc
      have hnone' : scope'.get? x = none := get?_eq_none hs hnew hx hnone false
      rw [if_neg (by simp [Bindings.contains, hnone']), ih (Option.map_eq_none_iff.1 hd)]
      rfl

/-- A name that is resolved keeps its distance, as it is written after the renaming. -/
theorem Renamed.distance?_respell (h : Renamed R ρ scopes scopes') {id : Nat} {name : Lexeme}
    (hx : name.text ≠ R.new) (hd : R.distances[id]? = distance? scopes name.text) :
    distance? scopes' (R.respell ρ id name).text = distance? scopes name.text := by
  rw [Renaming.respell, hd]
  cases hs : distance? scopes name.text with
  | some distance => exact h.distance?_eq_some hx hs
  | none => exact h.distance?_eq_none hx hs

/-- A name is bound in the innermost scope. -/
theorem Renamed.bind (h : Renamed R ρ scopes scopes') (hx : x ≠ R.new) (isDefined : Bool) :
    Renamed R ρ (scopes.bind x isDefined) (scopes'.bind (R.swap (ρ 0) x) isDefined) := by
  cases h with
  | nil => exact .nil ρ
  | @cons _ scope scope' outer outer' hs hnew ho =>
    refine .cons (fun y => ?_) ?_ ho
    · simp only [Bindings.get?_insert, hs, (R.swap (ρ 0)).injective.eq_iff]
    · rw [Bindings.get?_insert_of_ne hx.symm, hnew]

theorem Renamed.push (h : Renamed R ρ scopes scopes') (mark : Bool) :
    Renamed R (ρ.push mark) (∅ :: scopes) (∅ :: scopes') :=
  .cons (fun _ => rfl) rfl h

theorem Renamed.tail (h : Renamed R ρ scopes scopes') :
    Renamed R ρ.tail scopes.tail scopes'.tail := by
  cases h with
  | nil => exact .nil _
  | cons _ _ ho => exact ho

theorem Renamed.at?_zero (h : Renamed R ρ scopes scopes') (x : String) :
    scopes'.at? 0 (R.swap (ρ 0) x) = scopes.at? 0 x := by
  cases h with
  | nil => rfl
  | cons hs _ _ => exact hs x

/-- A name that is resolved is found in the innermost scope as before. -/
theorem Renamed.at?_respell (h : Renamed R ρ scopes scopes') {id : Nat} {name : Lexeme}
    (hx : name.text ≠ R.new) (hd : R.distances[id]? = distance? scopes name.text) :
    scopes'.at? 0 (R.respell ρ id name).text = scopes.at? 0 name.text := by
  cases h with
  | nil => rfl
  | @cons _ scope scope' outer outer' hs hnew ho =>
    rw [distance?_cons] at hd
    by_cases hc : scope.contains name.text
    · rw [if_pos hc] at hd
      rw [Renaming.respell, hd]
      exact hs name.text
    · have hnone : scope.get? name.text = none := by simpa [Bindings.contains] using hc
      obtain ⟨mark, hmark⟩ := R.exists_respell ρ id name
      rw [hmark]
      exact (get?_eq_none hs hnew hx hnone mark).trans hnone.symm

end Scopes

namespace Walk

/-- Two walks through a program before and after a renaming. If there are no errors before, there
    are none after. -/
structure Renamed (R : Renaming) (ρ : Marks) (w w' : Walk) : Prop where
  scopes : Scopes.Renamed R ρ w.scopes w'.scopes
  function : w'.function = w.function
  inClass : w'.inClass = w.inClass
  distances : w'.distances = w.distances
  errors : w.errors = #[] → w'.errors = #[]

variable {w w' : Walk}

theorem renamed_start (R : Renaming) (ρ : Marks) : Renamed R ρ .start .start :=
  ⟨.nil ρ, rfl, rfl, rfl, id⟩

namespace Renamed

/-- An error before the renaming makes up for one after it. -/
theorem report (h : Renamed R ρ w w') (lexeme lexeme' : Lexeme)
    (cause cause' : ResolveError.Cause) :
    Renamed R ρ (w.report lexeme cause) (w'.report lexeme' cause') :=
  { h with errors := fun he => absurd he (errors_report_ne _ _ _) }

theorem report_left (h : Renamed R ρ w w') (lexeme : Lexeme) (cause : ResolveError.Cause) :
    Renamed R ρ (w.report lexeme cause) w' :=
  { h with errors := fun he => absurd he (errors_report_ne _ _ _) }

theorem within (h : Renamed R ρ w w') (kind : FunctionScope) :
    Renamed R ρ { w with function := kind } { w' with function := kind } :=
  { h with function := rfl }

theorem withClass (h : Renamed R ρ w w') (inClass : ClassScope) :
    Renamed R ρ { w with inClass } { w' with inClass } :=
  { h with inClass := rfl }

theorem openScope (h : Renamed R ρ w w') (mark : Bool) :
    Renamed R (ρ.push mark) w.openScope w'.openScope :=
  { h with scopes := h.scopes.push mark }

theorem bind (h : Renamed R ρ w w') {x : String} (hx : x ≠ R.new) (isDefined : Bool) :
    Renamed R ρ (w.bind x isDefined) (w'.bind (R.swap (ρ 0) x) isDefined) := by
  rw [bind_eq, bind_eq]
  exact { h with scopes := h.scopes.bind hx isDefined }

theorem closeScope (h : Renamed R ρ w w') : Renamed R ρ.tail w.closeScope w'.closeScope :=
  { h with scopes := h.scopes.tail }

variable {name : Lexeme}

theorem declare (h : Renamed R ρ w w') (hx : name.text ≠ R.new) :
    Renamed R ρ (w.declare name) (w'.declare (name.respell R (ρ 0))) := by
  have hat := h.scopes.at?_zero name.text
  cases hs : Scopes.at? w.scopes 0 name.text with
  | none =>
    rw [declare_eq name hs, declare_eq (name.respell R (ρ 0)) (hat.trans hs)]
    exact h.bind hx false
  | some isDefined =>
    rw [declare_eq_report name hs, declare_eq_report (name.respell R (ρ 0)) (hat.trans hs)]
    exact h.report _ _ _ _

theorem introduce (h : Renamed R ρ w w') (hx : name.text ≠ R.new) :
    Renamed R ρ (w.introduce name) (w'.introduce (name.respell R (ρ 0))) :=
  (h.declare hx).bind hx true

theorem introduceAll (h : Renamed R ρ w w') (names : List Lexeme)
    (hx : ∀ name ∈ names, name.text ≠ R.new) :
    Renamed R ρ (w.introduceAll names) (w'.introduceAll (names.map (Lexeme.respell R (ρ 0)))) := by
  induction names generalizing w w' with
  | nil => exact h
  | cons name rest ih =>
    rw [List.forall_mem_cons] at hx
    exact ih (h.introduce hx.1) hx.2

/-- The same distance is written down. -/
theorem resolveLocal (h : Renamed R ρ w w') (id : Nat) {x x' : String}
    (hd : Scopes.distance? w'.scopes x' = Scopes.distance? w.scopes x) :
    Renamed R ρ (w.resolveLocal id x) (w'.resolveLocal id x') := by
  have hd' : w'.distance? x' = w.distance? x := hd
  rw [Walk.resolveLocal, Walk.resolveLocal, hd']
  split
  · next distance _ =>
    refine { h with distances := ?_ }
    change w'.distances.insert id distance = w.distances.insert id distance
    rw [h.distances]
  · exact h

theorem refer (h : Renamed R ρ w w') {id : Nat} (hx : name.text ≠ R.new)
    (hd : R.distances[id]? = Scopes.distance? w.scopes name.text) :
    Renamed R ρ (w.resolveLocal id name.text) (w'.resolveLocal id (R.respell ρ id name).text) :=
  h.resolveLocal id (h.scopes.distance?_respell hx hd)

theorem readVariable (h : Renamed R ρ w w') {id : Nat} (hx : name.text ≠ R.new)
    (hd : R.distances[id]? = Scopes.distance? w.scopes name.text) :
    Renamed R ρ (w.readVariable id name) (w'.readVariable id (R.respell ρ id name)) := by
  have hu : w'.isUndefined (R.respell ρ id name).text = w.isUndefined name.text := by
    rw [isUndefined_eq, isUndefined_eq, h.scopes.at?_respell hx hd]
  rw [Walk.readVariable, Walk.readVariable, hu]
  split
  · exact (h.report name (R.respell ρ id name) _ _).refer hx hd
  · exact h.refer hx hd

theorem returnKeyword (h : Renamed R ρ w w') (keyword : Lexeme) (hasValue : Bool) :
    Renamed R ρ (w.returnKeyword keyword hasValue) (w'.returnKeyword keyword hasValue) := by
  have htop : Renamed R ρ (if w.function = .none then w.report keyword .returnAtTop else w)
      (if w'.function = .none then w'.report keyword .returnAtTop else w') := by
    rw [h.function]
    split
    · exact h.report _ _ _ _
    · exact h
  rw [Walk.returnKeyword, Walk.returnKeyword]
  generalize (if w.function = .none then w.report keyword .returnAtTop else w) = u at htop ⊢
  generalize (if w'.function = .none then w'.report keyword .returnAtTop else w') = u' at htop ⊢
  rw [htop.function]
  split
  · exact htop.report _ _ _ _
  · exact htop

end Renamed

variable {T : Table}

mutual

/-- The walks stay side by side through an expression. -/
theorem Renamed.expr (hR : R.Proper) (hT : T.distances = R.distances) : {w w' : Walk} →
    Renamed R ρ w w' → (e : Expr) → e.Resolved T w.scopes → R.new ∉ e.names →
    Renamed R ρ (w.expr e) (w'.expr (e.respell R ρ))
  | _, _, h, .literal _ _, _, _ => h
  | _, _, h, .unary _ _ _ right, hr, hn => h.expr hR hT right hr hn
  | _, _, h, .binary _ _ _ left right, hr, hn => by
    rw [Expr.names, List.mem_append, not_or] at hn
    exact (h.expr hR hT left hr.1 hn.1).expr hR hT right (by rw [scopes_expr]; exact hr.2) hn.2
  | _, _, h, .logical _ _ _ left right, hr, hn => by
    rw [Expr.names, List.mem_append, not_or] at hn
    exact (h.expr hR hT left hr.1 hn.1).expr hR hT right (by rw [scopes_expr]; exact hr.2) hn.2
  | _, _, h, .grouping _ inner, hr, hn => h.expr hR hT inner hr hn
  | _, _, h, .var id name, hr, hn => by
    rw [Expr.names, List.mem_singleton] at hn
    exact h.readVariable (Ne.symm hn) (hT ▸ hr.2.distance)
  | _, _, h, .assign id name value, hr, hn => by
    rw [Expr.names, List.mem_cons, not_or] at hn
    refine (h.expr hR hT value hr.2 hn.2).refer (Ne.symm hn.1) ?_
    rw [scopes_expr, ← hT]
    exact hr.1.2.distance
  | _, _, h, .call _ callee _ arguments, hr, hn => by
    rw [Expr.names, List.mem_append, not_or] at hn
    exact (h.expr hR hT callee hr.1 hn.1).exprs hR hT arguments
      (by rw [scopes_expr]; exact hr.2) hn.2
  | _, _, h, .get _ object _, hr, hn =>
    h.expr hR hT object hr fun hm => hn (List.mem_cons_of_mem _ hm)
  | _, _, h, .set _ object _ value, hr, hn => by
    rw [Expr.names, List.mem_cons, List.mem_append, not_or, not_or] at hn
    exact (h.expr hR hT object hr.1 hn.2.1).expr hR hT value
      (by rw [scopes_expr]; exact hr.2) hn.2.2
  | w, w', h, .this id keyword, hr, _ => by
    have hne : keyword.text ≠ R.old ∧ keyword.text ≠ R.new :=
      hR.ne_of_keyword (by rw [hr.1]; decide)
    rw [Walk.expr, Expr.respell, Walk.expr, h.inClass]
    split
    · exact h.report _ _ _ _
    · exact h.refer hne.2 (by rw [hr.1, ← hT]; exact hr.2.1.distance)
  | w, w', h, .super id keyword method, hr, _ => by
    have hne : keyword.text ≠ R.old ∧ keyword.text ≠ R.new :=
      hR.ne_of_keyword (by rw [hr.1]; decide)
    have hd : Scopes.distance? w'.scopes (R.respell ρ id keyword).text =
        Scopes.distance? w.scopes keyword.text :=
      h.scopes.distance?_respell hne.2 (by rw [hr.1, ← hT]; exact hr.2.1.distance)
    rw [Renaming.respell_of_ne hne.1 hne.2] at hd
    rw [Walk.expr, Expr.respell, Walk.expr, h.inClass]
    split
    · exact (h.report keyword keyword _ _).resolveLocal id hd
    · exact (h.report keyword keyword _ _).resolveLocal id hd
    · exact h.resolveLocal id hd

theorem Renamed.exprs (hR : R.Proper) (hT : T.distances = R.distances) : {w w' : Walk} →
    Renamed R ρ w w' → (es : List Expr) → Expr.AllResolved T w.scopes es →
    R.new ∉ Expr.namesAll es →
    Renamed R ρ (w.exprs es) (w'.exprs (Expr.respellAll R ρ es))
  | _, _, h, [], _, _ => h
  | _, _, h, e :: rest, hr, hn => by
    rw [Expr.namesAll, List.mem_append, not_or] at hn
    exact (h.expr hR hT e hr.1 hn.1).exprs hR hT rest (by rw [scopes_expr]; exact hr.2) hn.2

end

theorem Renamed.expr? (hR : R.Proper) (hT : T.distances = R.distances) (h : Renamed R ρ w w')
    {e : Option Expr} (hr : Expr.OptionResolved T w.scopes e) (hn : R.new ∉ Expr.namesOption e) :
    Renamed R ρ (w.expr? e) (w'.expr? (e.map (Expr.respell R ρ))) := by
  cases e with
  | none => exact h
  | some e => exact h.expr hR hT e (hr e rfl) hn

/-! ### Classes -/

variable {superclass : Option VarRef}

/-- A class that inherits from itself after the renaming did so before. -/
theorem Renamed.classHead (hT : T.distances = R.distances) (h : Renamed R ρ w w') {name : Lexeme}
    (hx : name.text ≠ R.new) (hname : name.respell R (ρ 0) = name)
    (hr : SuperclassResolved T (Scopes.bind w.scopes name.text true) superclass)
    (hn : ∀ ref ∈ superclass, ref.name.text ≠ R.new) :
    Renamed R ρ (w.classHead name superclass)
      (w'.classHead name (superclass.map (VarRef.respell R ρ))) := by
  have hi := (h.withClass .base).introduce hx
  rw [hname] at hi
  cases superclass with
  | none => exact hi
  | some ref =>
    have hnew := hn ref rfl
    have hself : (R.respell ρ ref.id ref.name).text = name.text → ref.name.text = name.text := by
      obtain ⟨mark, hmark⟩ := R.exists_respell ρ ref.id ref.name
      rw [hmark]
      intro heq
      rcases R.swap_swap_of_ne false mark hnew with hsame | hother
      · exact hsame.symm.trans heq
      · exact absurd (heq.symm.trans hother) hx
    have hchecked : Renamed R ρ
        (if ref.name.text = name.text then
          ({ w with inClass := .base }.introduce name).report ref.name .inheritFromItself
        else { w with inClass := .base }.introduce name)
        (if (R.respell ρ ref.id ref.name).text = name.text then
          ({ w' with inClass := .base }.introduce name).report (R.respell ρ ref.id ref.name)
            .inheritFromItself
        else { w' with inClass := .base }.introduce name) := by
      split
      · split
        · exact hi.report _ _ _ _
        · exact hi.report_left _ _
      · next hne =>
        rw [if_neg fun heq => hne (hself heq)]
        exact hi
    refine (hchecked.withClass .derived).readVariable hnew ?_
    have hscopes := scopes_classHead w name (some ref)
    rw [Walk.classHead, scopes_readVariable] at hscopes
    rw [hscopes, ← hT]
    exact (hr ref rfl).2.distance

theorem Renamed.openClass (hR : R.Proper) (hT : T.distances = R.distances) (h : Renamed R ρ w w')
    {name : Lexeme} (hx : name.text ≠ R.new) (hname : name.respell R (ρ 0) = name)
    (hr : SuperclassResolved T (Scopes.bind w.scopes name.text true) superclass)
    (hn : ∀ ref ∈ superclass, ref.name.text ≠ R.new) :
    Renamed R (ρ.pushClass superclass) (w.openClass name superclass)
      (w'.openClass name (superclass.map (VarRef.respell R ρ))) := by
  have hhead := h.classHead hT hx hname hr hn
  have hthis : "this" ≠ R.new := (hR.ne_of_keyword (by decide)).2
  have hsuper : "super" ≠ R.new := (hR.ne_of_keyword (by decide)).2
  cases superclass with
  | none => exact (hhead.openScope false).bind hthis true
  | some ref =>
    exact (((hhead.openScope false).bind hsuper true).openScope false).bind hthis true

theorem Renamed.closeClass (h : Renamed R (ρ.pushClass superclass) w w') :
    Renamed R ρ (w.closeClass superclass)
      (w'.closeClass (superclass.map (VarRef.respell R ρ))) := by
  cases superclass with
  | none => exact h.closeScope
  | some ref => exact h.closeScope.closeScope

/-! ### Statements -/

mutual

/-- The walks stay side by side through a statement. -/
theorem Renamed.stmt (hR : R.Proper) (hT : T.distances = R.distances) {ρ : Marks} {w w' : Walk}
    (h : Renamed R ρ w w') {within : FunctionScope} :
    (stmt : Stmt) → {stmt' : Stmt} → Stmt.Renamed R ρ stmt stmt' →
    stmt.Resolved T within w.scopes → stmt.Regular → R.new ∉ stmt.names →
    Renamed R ρ (w.stmt stmt) (w'.stmt stmt')
  | .expression e, _, hs, hr, _, hn => by
    cases hs
    exact h.expr hR hT e hr hn
  | .print e, _, hs, hr, _, hn => by
    cases hs
    exact h.expr hR hT e hr hn
  | .var name initial, _, hs, hr, _, hn => by
    cases hs
    rw [Stmt.names, List.mem_cons, not_or] at hn
    have hscopes : (w.declare name).scopes = Scopes.bind w.scopes name.text false := by
      rw [declare_eq name hr.1.isNew, scopes_bind]
    have hdeclared := h.declare (Ne.symm hn.1)
    refine Renamed.bind ?_ (Ne.symm hn.1) true
    exact hdeclared.expr? hR hT (by rw [hscopes]; exact hr.2) hn.2
  | .block body, _, hs, hr, hreg, hn => by
    cases hs with
    | block mark hb => exact ((h.openScope mark).stmts hR hT body hb hr hreg hn).closeScope
  | .branch condition yes none, _, hs, hr, hreg, hn => by
    simp only [Stmt.names, List.mem_append, not_or] at hn
    cases hs with
    | branch _ hyes hno =>
      cases hno
      exact (h.expr hR hT condition hr.1 hn.1.1).stmt hR hT yes hyes
        (by rw [scopes_expr]; exact hr.2.1.1) hreg.2.1.1 hn.1.2
  | .branch condition yes (some no), _, hs, hr, hreg, hn => by
    simp only [Stmt.names, List.mem_append, not_or] at hn
    cases hs with
    | branch _ hyes hno =>
      cases hno with
      | some hno =>
        have hr' : no.Resolved T within ((w.expr condition).stmt yes).scopes := by
          rw [scopes_stmt _ yes hreg.2.1.1, Stmt.scopesAfter, hreg.2.1.2, scopes_expr]
          exact hr.2.2.1
        exact ((h.expr hR hT condition hr.1 hn.1.1).stmt hR hT yes hyes
          (by rw [scopes_expr]; exact hr.2.1.1) hreg.2.1.1 hn.1.2).stmt hR hT no hno hr' hreg.2.2.1
          hn.2
  | .loop condition body, _, hs, hr, hreg, hn => by
    simp only [Stmt.names, List.mem_append, not_or] at hn
    cases hs with
    | loop _ hbody =>
      exact (h.expr hR hT condition hr.1 hn.1).stmt hR hT body hbody
        (by rw [scopes_expr]; exact hr.2.1) hreg.2.1 hn.2
  | .function decl, _, hs, hr, hreg, hn => by
    cases hs with
    | function hname hdecl =>
      have hx : decl.name.text ≠ R.new := fun heq => hn (heq ▸ Stmt.mem_namesDecl decl)
      have hi := h.introduce hx
      rw [hname] at hi
      rw [Walk.stmt, Walk.stmt, hdecl.name_eq]
      exact hi.functionBody hR hT .function decl hdecl (by rw [scopes_introduce]; exact hr.2)
        hreg.2 hn
  | .ret keyword value, _, hs, hr, _, hn => by
    cases hs
    have hk := h.returnKeyword keyword value.isSome
    have hsome : (value.map (Expr.respell R ρ)).isSome = value.isSome := Option.isSome_map
    rw [Walk.stmt, Walk.stmt, hsome]
    exact hk.expr? hR hT (by rw [scopes_returnKeyword]; exact hr.2) hn
  | .classDecl name superclass methods, _, hs, hr, hreg, hn => by
    cases hs with
    | classDecl _ hname hmethods =>
      simp only [Stmt.names, List.mem_cons, List.mem_append, not_or] at hn
      have hopen := h.openClass hR hT (Ne.symm hn.1) hname hr.2.1 fun ref href heq => hn.2.1 (by
        cases href
        exact List.mem_singleton.2 heq.symm)
      have hinside := hopen.methods hR hT methods hmethods
        (by rw [scopes_openClass]; exact hr.2.2) hreg.2.2 hn.2.2
      rw [Walk.stmt, Walk.stmt, h.inClass]
      exact hinside.closeClass.withClass w.inClass
termination_by structural stmt => stmt

theorem Renamed.stmts (hR : R.Proper) (hT : T.distances = R.distances) {ρ : Marks} {w w' : Walk}
    (h : Renamed R ρ w w') {within : FunctionScope} :
    (stmts : List Stmt) → {stmts' : List Stmt} → Stmt.AllRenamed R ρ stmts stmts' →
    Stmt.AllResolved T within w.scopes stmts → Stmt.AllRegular stmts → R.new ∉ Stmt.namesAll stmts →
    Renamed R ρ (w.stmts stmts) (w'.stmts stmts')
  | [], _, hs, _, _, _ => by
    cases hs
    exact h
  | stmt :: rest, _, hs, hr, hreg, hn => by
    rw [Stmt.namesAll, List.mem_append, not_or] at hn
    cases hs with
    | cons hstmt hrest =>
      exact (h.stmt hR hT stmt hstmt hr.1 hreg.1 hn.1).stmts hR hT rest hrest
        (by rw [scopes_stmt w stmt hreg.1]; exact hr.2) hreg.2 hn.2
termination_by structural stmts => stmts

theorem Renamed.functionBody (hR : R.Proper) (hT : T.distances = R.distances) {ρ : Marks}
    {w w' : Walk} (h : Renamed R ρ w w') {within : FunctionScope} (kind : FunctionScope) :
    (decl : FunctionDecl Stmt) → {decl' : FunctionDecl Stmt} → Stmt.DeclRenamed R ρ decl decl' →
    Stmt.DeclResolved T within w.scopes decl → Stmt.DeclRegular decl → R.new ∉ Stmt.namesDecl decl →
    Renamed R ρ (w.functionBody kind decl) (w'.functionBody kind decl')
  | ⟨name, params, body⟩, _, hs, hr, hreg, hn => by
    simp only [Stmt.namesDecl, List.mem_cons, List.mem_append, not_or] at hn
    cases hs with
    | mk mark _ _ hbody =>
      have hparams := ((h.within kind).openScope mark).introduceAll params
        fun param hp heq => hn.2.1 (heq ▸ List.mem_map_of_mem hp)
      have hscopes := scopes_introduceAll (w := { w with function := kind }.openScope) ∅ w.scopes
        params rfl
      have hinside := hparams.stmts hR hT body hbody (by rw [hscopes]; exact hr.2) hreg.2 hn.2.2
      rw [Walk.functionBody, Walk.functionBody, h.function]
      exact hinside.closeScope.within w.function
termination_by structural decl => decl

theorem Renamed.methods (hR : R.Proper) (hT : T.distances = R.distances) {ρ : Marks} {w w' : Walk}
    (h : Renamed R ρ w w') :
    (decls : List (FunctionDecl Stmt)) → {decls' : List (FunctionDecl Stmt)} →
    Stmt.DeclsRenamed R ρ decls decls' → Stmt.MethodsResolved T w.scopes decls →
    Stmt.DeclsRegular decls → R.new ∉ Stmt.namesDecls decls →
    Renamed R ρ (w.methods decls) (w'.methods decls')
  | [], _, hs, _, _, _ => by
    cases hs
    exact h
  | decl :: rest, _, hs, hr, hreg, hn => by
    rw [Stmt.namesDecls, List.mem_append, not_or] at hn
    cases hs with
    | cons hdecl hrest =>
      rw [Walk.methods, Walk.methods, hdecl.name_eq]
      exact (h.functionBody hR hT (methodScope decl.name) decl hdecl hr.1 hreg.1 hn.1).methods hR hT
        rest hrest (by rw [scopes_functionBody w _ decl hreg.1]; exact hr.2) hreg.2 hn.2
termination_by structural decls => decls

end

end Walk

/-- A program in which names are swapped is accepted with the same distances. -/
theorem Program.resolve_of_renamed {p p' : Program} (hR : R.Proper)
    (hp : p.resolve = .ok R.distances) (h : Stmt.AllRenamed R .none p p') {T : Table}
    (hT : T.distances = R.distances) (hr : Stmt.AllResolved T .none [] p) (hreg : Stmt.AllRegular p)
    (hn : R.new ∉ Stmt.namesAll p) : p'.resolve = .ok R.distances := by
  have hw := (Walk.renamed_start R .none).stmts hR hT p h hr hreg hn
  obtain ⟨he, hd⟩ := Walk.result_eq_ok.1 hp
  exact Walk.result_eq_ok.2 ⟨hw.errors he, hw.distances.trans hd⟩

end Lox
