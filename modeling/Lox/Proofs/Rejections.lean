import Mathlib
import Lox.Proofs.Recasting
import Lox.Proofs.RelabelledRuns
import Lox.Proofs.RelabelledScopes
import Lox.Proofs.Returning

/-!
# Rejected sources

A source that is rejected is not run, but it uses up numbers: the expressions of all later sources
get other identities than they would have got without it. No one can tell. Leave out of a sequence
of requests all that are rejected, and the others are answered as before.

Two sessions are compared, one that is given all requests and one that is given those that the first
does not reject. They are *alike* (`Session.Alike`): the state of the first is that of the second,
relabelled. Which identities are relabelled to which is known for those given out so far. For the
others it is left open, but for that they stay ahead of those given out by the first session, since
it is not known how many numbers the next rejected source will use up.

* `Session.Alike.answer`: one request;
* `Session.Reachable.alike`: a session is alike to itself, so nothing in its state has a number that
  is still to be given out;
* `Session.answers_accepted_eq_filter`: the answers without the rejected requests.
-/

namespace Lox

/-! ### What can be seen -/

/-- What can be seen of a value. -/
structure Value.View where
  display : String
  typeName : String
  isTruthy : Bool
  deriving DecidableEq, Repr

/-- A value as it is seen. -/
def Value.view (v : Value) : Value.View := ⟨v.display, v.typeName, v.isTruthy⟩

@[simp]
theorem Value.view_relabel (L : Relabelling) (v : Value) : (v.relabel L).view = v.view := by
  simp [Value.view]

namespace Report

/-- The same report about another result. -/
def map {α β : Type} (f : α → β) : Report α → Report β
  | success result => success (f result)
  | rejected errors => rejected errors
  | failed e => failed e
  | fault f => fault f
  | unfinished => unfinished

/-- Whether the source was not run. -/
def isRejected {α : Type} : Report α → Bool
  | rejected _ => true
  | _ => false

@[simp]
theorem isRejected_map {α β : Type} (f : α → β) (r : Report α) :
    (r.map f).isRejected = r.isRejected := by
  cases r <;> rfl

theorem isRejected_of_ne {α : Type} {r : Report α} (h : ∀ errors, r ≠ rejected errors) :
    r.isRejected = false := by
  cases r with
  | rejected errors => exact absurd rfl (h errors)
  | _ => rfl

end Report

/-- What a session can be asked to do. -/
inductive Request where
  /-- To run a source, for at most `fuel` steps. -/
  | run (fuel : Nat) (source : List UInt8)
  /-- To evaluate a source that is one expression, for at most `fuel` steps. -/
  | evaluate (fuel : Nat) (source : List UInt8)

/-- What is seen of a session after a request: how it was answered, with the value if there is one,
    and all that was printed. -/
structure Answer where
  report : Report (Option Value.View)
  sink : Sink

namespace Session

/-- Answers a request. -/
def answer (s : Session) : Request → Answer × Session
  | .run fuel source =>
    let (report, s) := s.run fuel source
    (⟨report.map fun _ => none, s.state.sink⟩, s)
  | .evaluate fuel source =>
    let (report, s) := s.evaluate fuel source
    (⟨report.map (some ·.view), s.state.sink⟩, s)

/-- Answers requests one after another. -/
def answers (s : Session) : List Request → List Answer
  | [] => []
  | request :: rest => (s.answer request).1 :: (s.answer request).2.answers rest

/-- Those of some requests, one after another, that are not rejected. -/
def accepted (s : Session) : List Request → List Request
  | [] => []
  | request :: rest =>
    if (s.answer request).1.report.isRejected then (s.answer request).2.accepted rest
    else request :: (s.answer request).2.accepted rest

theorem Reachable.answer {s : Session} (h : s.Reachable) (request : Request) :
    (s.answer request).2.Reachable := by
  cases request with
  | run fuel source => exact h.run fuel source
  | evaluate fuel source => exact h.evaluate fuel source

end Session

/-! ### Reading with other numbers -/

theorem RuntimeError.relabel_ofIds (f : Nat → Nat) (e : RuntimeError) :
    e.relabel (.ofIds f) = e := by
  cases e <;> rfl

variable {n : Nat} {tokens : List Token}

/-- With the lines kept, the same tokens are read with other numbers. -/
theorem Cursor.recast_ofTokens {f : Nat → Nat} (tokens : List Token) {n' : Nat}
    (hf : ∀ i, f (n + i) = n' + i) : (ofTokens tokens n).Recast (.ofIds f) none
      (ofTokens tokens n') where
  rest := by
    have hsame : Token.relabel (.ofIds f) = id := rfl
    rw [hsame, List.map_id, Option.getD_none, List.append_nil]
    rfl
  eof _ := rfl
  nextId := hf
  size := Nat.le_refl _
  errors := rfl

/-- A program that is read is read with lower numbers too, and its identities are those, raised. -/
theorem Program.parse_of_add {k : Nat} {p : Program} {s : Cursor}
    (hp : Program.parse (.ofTokens tokens (n + k)) = (.ok p, s)) :
    ∃ p₀ s₀, Program.parse (.ofTokens tokens n) = (.ok p₀, s₀) ∧
      p = Stmt.relabelAll (.ofIds (· + k)) p₀ ∧ s.nextId = s₀.nextId + k := by
  have hdown : (Cursor.ofTokens tokens (n + k)).Recast (.ofIds (· - k)) none (.ofTokens tokens n) :=
    Cursor.recast_ofTokens tokens fun i => by omega
  have hup : (Cursor.ofTokens tokens n).Recast (.ofIds (· + k)) none (.ofTokens tokens (n + k)) :=
    Cursor.recast_ofTokens tokens fun i => by omega
  obtain ⟨s₀, hp₀, -⟩ := Program.parse_recast (Cursor.proper_ofTokens _ _) hp hdown
  obtain ⟨s₁, hp₁, hs₁⟩ := Program.parse_recast (Cursor.proper_ofTokens _ _) hp₀ hup
  -- Reading is a function, so lowering and raising comes back to what was read.
  obtain ⟨hp', rfl⟩ := Prod.ext_iff.1 (hp.symm.trans hp₁)
  injection hp' with hp'
  exact ⟨_, s₀, hp₀, hp', (hs₁.nextId 0).symm⟩

/-- An expression that is read is read with lower numbers too, and its identities are those,
    raised. -/
theorem Expr.parse_of_add {k : Nat} {e : Expr} {s : Cursor}
    (he : Expr.parse (.ofTokens tokens (n + k)) = (.ok e, s)) :
    ∃ e₀ s₀, Expr.parse (.ofTokens tokens n) = (.ok e₀, s₀) ∧
      e = e₀.relabel (.ofIds (· + k)) ∧ s.nextId = s₀.nextId + k := by
  have hdown : (Cursor.ofTokens tokens (n + k)).Recast (.ofIds (· - k)) none (.ofTokens tokens n) :=
    Cursor.recast_ofTokens tokens fun i => by omega
  have hup : (Cursor.ofTokens tokens n).Recast (.ofIds (· + k)) none (.ofTokens tokens (n + k)) :=
    Cursor.recast_ofTokens tokens fun i => by omega
  obtain ⟨s₀, he₀, -⟩ := Expr.parse_recast he hdown
  obtain ⟨s₁, he₁, hs₁⟩ := Expr.parse_recast he₀ hup
  obtain ⟨he', rfl⟩ := Prod.ext_iff.1 (he.symm.trans he₁)
  injection he' with he'
  exact ⟨_, s₀, he₀, he', (hs₁.nextId 0).symm⟩

/-! ### Sessions that are alike -/

namespace Session

/-- The identities below `n` are relabelled as by `f`, and the others to numbers from `m` on. -/
structure Fits (f : Nat → Nat) (n m : Nat) (g : Nat → Nat) : Prop where
  below : ∀ id < n, g id = f id
  above : ∀ id, n ≤ id → m ≤ g id

/-- Two sessions that differ in identities: those that `t` has given out are relabelled by `f` to
    those that `s` has given out. Whatever becomes of the others, state and distances of `s` are
    those of `t`, relabelled. -/
structure Alike (f : Nat → Nat) (s t : Session) : Prop where
  nextId : t.nextId ≤ s.nextId
  maxDepth : s.maxDepth = t.maxDepth
  below : ∀ id < t.nextId, f id < s.nextId
  state : ∀ {g}, Fits f t.nextId s.nextId g → s.state = t.state.relabel (.ofIds g)
  distances : ∀ {g}, Fits f t.nextId s.nextId g → ∀ id, s.distances[g id]? = t.distances[id]?

variable {f : Nat → Nat} {s t : Session}

variable {k n : Nat} {g : Nat → Nat} {m m' : Machine} {source : List UInt8}

/-- A source that is rejected only uses up numbers. -/
theorem Alike.skip (h : Alike f s t) (hn : s.nextId ≤ n) : Alike f { s with nextId := n } t where
  nextId := h.nextId.trans hn
  maxDepth := h.maxDepth
  below id hid := (h.below id hid).trans_le hn
  state hg := h.state ⟨hg.below, fun id hid => hn.trans (hg.above id hid)⟩
  distances hg := h.distances ⟨hg.below, fun id hid => hn.trans (hg.above id hid)⟩

/-- The numbers from `n` on are raised by `k`. -/
def extend (f : Nat → Nat) (n k id : Nat) : Nat := if id < n then f id else id + k

/-- If the new numbers of one session become the new numbers of another, the old ones still become
    old ones. -/
theorem Fits.of_extend {n₁ : Nat} (hg : Fits (extend f n k) n₁ (n₁ + k) g) (hn : n ≤ n₁) :
    Fits f n (n + k) g ∧ ∀ id, n ≤ id → id < n₁ → g id = id + k := by
  have hnew : ∀ id, n ≤ id → id < n₁ → g id = id + k := by
    intro id hid hlt
    rw [hg.below id hlt, extend, if_neg (Nat.not_lt.2 hid)]
  refine ⟨⟨fun id hid => ?_, fun id hid => ?_⟩, hnew⟩
  · rw [hg.below id (hid.trans_le hn), extend, if_pos hid]
  · rcases Nat.lt_or_ge id n₁ with hlt | hge
    · rw [hnew id hid hlt]
      exact Nat.add_le_add_right hid k
    · exact (Nat.add_le_add_right hn k).trans (hg.above id hge)

/-- Machines that differ in the same way as the sessions that they run in. -/
def MachinesAlike (f : Nat → Nat) (s t : Session) (m m' : Machine) : Prop :=
  ∀ {g}, Fits f t.nextId s.nextId g → m = m'.relabel (.ofIds g) []

/-- The two sessions after a source was read and resolved by both, and the machines that are about
    to run. -/
theorem Alike.begin (h : Alike f s t) (hk : s.nextId = t.nextId + k) {ids : List Nat}
    (hids : Numbered t.nextId n ids) (hn : t.nextId ≤ n) {distances distances' : Distances}
    (hd : ∀ id, distances[id + k]? = distances'[id]?)
    (hs : ∀ id, id < s.nextId ∨ n + k ≤ id → distances[id]? = none)
    (ht : ∀ id, id < t.nextId ∨ n ≤ id → distances'[id]? = none) {c c' : Control}
    (hc : ∀ {g : Nat → Nat}, (∀ id ∈ ids, g id = id + k) → c = c'.relabel (.ofIds g)) :
    Alike (extend f t.nextId k) ({ s with nextId := n + k }.install distances)
        ({ t with nextId := n }.install distances') ∧
      MachinesAlike (extend f t.nextId k) ({ s with nextId := n + k }.install distances)
        ({ t with nextId := n }.install distances') ⟨c, [], s.state⟩ ⟨c', [], t.state⟩ := by
  have hfits : ∀ {g}, Fits (extend f t.nextId k) n (n + k) g →
      Fits f t.nextId s.nextId g ∧ ∀ id, t.nextId ≤ id → id < n → g id = id + k := by
    intro g hg
    rw [hk]
    exact hg.of_extend hn
  refine ⟨⟨Nat.le_add_right .., h.maxDepth, fun id hid => ?_,
    fun hg => h.state (hfits hg).1, fun {g} hg id => ?_⟩, fun {g} hg => ?_⟩
  · change extend f t.nextId k id < n + k
    rw [extend]
    split
    · next hlt => exact (h.below id hlt).trans_le (hk.trans_le (Nat.add_le_add_right hn k))
    · exact Nat.add_lt_add_right hid k
  · obtain ⟨hold, hnew⟩ := hfits hg
    have hadded : distances[g id]? = distances'[id]? := by
      -- An identity of an earlier source, of this one, or of none so far.
      rcases Nat.lt_or_ge id t.nextId with hlt | hge
      · rw [ht id (.inl hlt), hs (g id) (.inl (hold.below id hlt ▸ h.below id hlt))]
      · rcases Nat.lt_or_ge id n with hlt | hge'
        · rw [hnew id hge hlt, hd]
        · rw [ht id (.inr hge'), hs (g id) (.inr (hg.above id hge'))]
    rw [getElem?_install, getElem?_install, hadded]
    exact congrArg _ (h.distances hold id)
  · obtain ⟨hold, hnew⟩ := hfits hg
    have hc' := hc fun id hid => hnew id (hids.range id hid).1 (hids.range id hid).2
    exact congrArg₂ (Machine.mk · []) hc' (h.state hold)

/-- A run of both. -/
theorem Alike.relabels (h : Alike f s t) (hg : Fits f t.nextId s.nextId g) :
    Machine.Relabels (.ofIds g) t.config s.config where
  distances := h.distances hg
  maxDepth := h.maxDepth
  natives := rfl
  natives' := rfl

theorem exists_fits (f : Nat → Nat) (n m : Nat) : ∃ g, Fits f n m g := by
  refine ⟨fun id => if id < n then f id else m, fun id hid => if_pos hid, fun id hid => ?_⟩
  rw [if_neg (Nat.not_lt.2 hid)]

theorem Alike.machine_run (h : Alike f s t) (hm : MachinesAlike f s t m m') (fuel : Nat) :
    MachinesAlike f s t (m.run s.config fuel) (m'.run t.config fuel) := by
  intro g hg
  rw [hm hg]
  exact (h.relabels hg).run fuel m'

/-- What is told about machines that are alike, and the sessions that are left behind. -/
theorem Alike.conclude (h : Alike f s t) (hm : MachinesAlike f s t m m')
    (hsound : m'.Sound t.table) :
    (s.conclude m).1 = (t.conclude m').1 ∧ Alike f (s.conclude m).2 (t.conclude m').2 := by
  refine ⟨?_, { h with state := fun hg => congrArg Machine.state (hm hg) }⟩
  obtain ⟨g, hg⟩ := exists_fits f t.nextId s.nextId
  rw [hm hg, Session.conclude, Session.conclude, Machine.outcome?_relabel]
  cases ho : m'.outcome? with
  | none => rfl
  | some o =>
    rcases hsound.outcome ho with ⟨v, rfl⟩ | ⟨e, rfl⟩
    · rfl
    · exact congrArg Report.failed (e.relabel_ofIds g)

theorem Alike.concludeExpr (h : Alike f s t) (hm : MachinesAlike f s t m m')
    (hsound : m'.Sound t.table) :
    (s.concludeExpr m).1.map (some ·.view) = (t.concludeExpr m').1.map (some ·.view) ∧
      Alike f (s.concludeExpr m).2 (t.concludeExpr m').2 := by
  refine ⟨?_, { h with state := fun hg => congrArg Machine.state (hm hg) }⟩
  obtain ⟨g, hg⟩ := exists_fits f t.nextId s.nextId
  rw [hm hg, Session.concludeExpr, Session.concludeExpr, Machine.outcome?_relabel]
  cases ho : m'.outcome? with
  | none => rfl
  | some o =>
    rcases hsound.outcome ho with ⟨v, rfl⟩ | ⟨e, rfl⟩
    · exact congrArg (Report.success ∘ some) (v.view_relabel _)
    · exact congrArg Report.failed (e.relabel_ofIds g)

/-- A program that `s` accepts is accepted by `t`. -/
theorem Alike.load (h : Alike f s t) (ht : t.Sound) (hk : s.nextId = t.nextId + k) {s₁ : Session}
    (hl : s.load source = (.ok m, s₁)) :
    ∃ m' t₁, t.load source = (.ok m', t₁) ∧ Alike (extend f t.nextId k) s₁ t₁ ∧
      MachinesAlike (extend f t.nextId k) s₁ t₁ m m' ∧ m'.Sound t₁.table := by
  have hscan := scanErrors_of_load hl
  obtain ⟨p, cursor, distances, hp, hr, rfl, rfl⟩ := load_eq_ok hl
  have hout := none_of_numbered (Program.numbered_of_parse hp) fun id =>
    Program.getElem?_of_resolve hr
  rw [hk] at hp
  obtain ⟨p₀, cursor₀, hp₀, rfl, hcursor⟩ := Program.parse_of_add hp
  obtain ⟨distances₀, hr₀, hd⟩ := Program.resolve_of_relabel (add_left_injective k) hr
  have hids₀ := Program.numbered_of_parse hp₀
  have hn₀ := Program.nextId_le_of_parse hp₀
  rw [hcursor] at hout ⊢
  have hc : ∀ {g : Nat → Nat}, (∀ id ∈ Stmt.idsAll p₀, g id = id + k) →
      Control.execAll (Stmt.relabelAll (.ofIds (· + k)) p₀) =
        (Control.execAll p₀).relabel (.ofIds g) :=
    fun hg => congrArg Control.execAll
      (Stmt.relabelAll_congr (by rfl) p₀ fun id hid => (hg id hid).symm)
  obtain ⟨halike, hm⟩ := h.begin hk hids₀ hn₀ hd hout
    (none_of_numbered hids₀ fun id => Program.getElem?_of_resolve hr₀) hc
  exact ⟨_, _, load_of_parse hscan hp₀ hr₀, halike, hm, (ht.machine hp₀ hr₀).2⟩

/-- An expression that `s` accepts is accepted by `t`. -/
theorem Alike.loadExpr (h : Alike f s t) (ht : t.Sound) (hk : s.nextId = t.nextId + k)
    {s₁ : Session} (hl : s.loadExpr source = (.ok m, s₁)) :
    ∃ m' t₁, t.loadExpr source = (.ok m', t₁) ∧ Alike (extend f t.nextId k) s₁ t₁ ∧
      MachinesAlike (extend f t.nextId k) s₁ t₁ m m' ∧ m'.Sound t₁.table := by
  have hscan := scanErrors_of_loadExpr hl
  obtain ⟨e, cursor, distances, he, hr, rfl, rfl⟩ := loadExpr_eq_ok hl
  have hout := none_of_numbered (Expr.numbered_of_parse he) fun id => Expr.getElem?_of_resolve hr
  rw [hk] at he
  obtain ⟨e₀, cursor₀, he₀, rfl, hcursor⟩ := Expr.parse_of_add he
  obtain ⟨distances₀, hr₀, hd⟩ := Expr.resolve_of_relabel (add_left_injective k) hr
  have hids₀ := Expr.numbered_of_parse he₀
  have hn₀ := Expr.nextId_le_of_parse he₀
  rw [hcursor] at hout ⊢
  have hc : ∀ {g : Nat → Nat}, (∀ id ∈ e₀.ids, g id = id + k) →
      Control.eval (e₀.relabel (.ofIds (· + k))) = (Control.eval e₀).relabel (.ofIds g) :=
    fun hg => congrArg Control.eval (e₀.relabel_congr (by rfl) fun id hid => (hg id hid).symm)
  obtain ⟨halike, hm⟩ := h.begin hk hids₀ hn₀ hd hout
    (none_of_numbered hids₀ fun id => Expr.getElem?_of_resolve hr₀) hc
  exact ⟨_, _, loadExpr_of_parse hscan he₀ hr₀, halike, hm, (ht.machineExpr he₀ hr₀).2⟩

theorem isRejected_conclude (s : Session) (m : Machine) : (s.conclude m).1.isRejected = false :=
  Report.isRejected_of_ne (conclude_ne_rejected s m)

theorem isRejected_concludeExpr (s : Session) (m : Machine) :
    (s.concludeExpr m).1.isRejected = false :=
  Report.isRejected_of_ne (concludeExpr_ne_rejected s m)

/-- A request that is rejected only uses up numbers. -/
theorem answer_of_rejected {request : Request} (h : (s.answer request).1.report.isRejected = true) :
    ∃ n, s.nextId ≤ n ∧ (s.answer request).2 = { s with nextId := n } := by
  cases request with
  | run fuel source =>
    rw [answer, Report.isRejected_map] at h
    rw [answer]
    rcases load_cases s source with ⟨errors, n, hn, hl⟩ | ⟨p, cursor, distances, -, -, hl⟩
    · exact ⟨n, hn, by rw [Session.run, hl]⟩
    · rw [Session.run, hl, isRejected_conclude] at h
      cases h
  | evaluate fuel source =>
    rw [answer, Report.isRejected_map] at h
    rw [answer]
    rcases loadExpr_cases s source with ⟨errors, n, hn, hl⟩ | ⟨e, cursor, distances, -, -, hl⟩
    · exact ⟨n, hn, by rw [Session.evaluate, hl]⟩
    · rw [Session.evaluate, hl, isRejected_concludeExpr] at h
      cases h

theorem Alike.sink_eq (h : Alike f s t) : s.state.sink = t.state.sink := by
  obtain ⟨g, hg⟩ := exists_fits f t.nextId s.nextId
  rw [h.state hg]
  rfl

/-- A request that `s` does not reject is answered alike by both sessions, which are alike then. -/
theorem Alike.answer (h : Alike f s t) (ht : t.Sound) (hk : s.nextId = t.nextId + k)
    {request : Request} (hr : (s.answer request).1.report.isRejected = false) :
    (s.answer request).1 = (t.answer request).1 ∧
      Alike (extend f t.nextId k) (s.answer request).2 (t.answer request).2 := by
  cases request with
  | run fuel source =>
    rw [Session.answer, Session.run] at hr ⊢
    rw [Session.answer, Session.run]
    cases hl : s.load source with
    | mk result s₁ =>
      cases result with
      | error errors => simp [hl, Report.isRejected, Report.map] at hr
      | ok m =>
        obtain ⟨m', t₁, hl', halike, hm, hsound⟩ := h.load ht hk hl
        obtain ⟨hreport, hafter⟩ := halike.conclude (halike.machine_run hm fuel)
          (hsound.run (serves_config t₁) fuel)
        rw [hl']
        exact ⟨congrArg₂ Answer.mk (congrArg (Report.map _) hreport) hafter.sink_eq, hafter⟩
  | evaluate fuel source =>
    rw [Session.answer, Session.evaluate] at hr ⊢
    rw [Session.answer, Session.evaluate]
    cases hl : s.loadExpr source with
    | mk result s₁ =>
      cases result with
      | error errors => simp [hl, Report.isRejected, Report.map] at hr
      | ok m =>
        obtain ⟨m', t₁, hl', halike, hm, hsound⟩ := h.loadExpr ht hk hl
        obtain ⟨hreport, hafter⟩ := halike.concludeExpr (halike.machine_run hm fuel)
          (hsound.run (serves_config t₁) fuel)
        rw [hl']
        exact ⟨congrArg₂ Answer.mk hreport hafter.sink_eq, hafter⟩

/-! ### Sequences of requests -/

/-- At first no expression was read, so nothing depends on numbers. -/
theorem alike_new (sink : Sink) (clock : Clock) (maxDepth : Nat) :
    Alike id (Session.new sink clock maxDepth) (Session.new sink clock maxDepth) where
  nextId := Nat.le_refl _
  maxDepth := rfl
  below id hid := hid
  state {g} _ := by
    have hempty : Store.empty.newIdentity.2.relabel (.ofIds g) = Store.empty.newIdentity.2 := by
      simp [Store.relabel, Store.empty, Store.newIdentity, Frame.relabel]
    have hstore := Store.define_relabel (.ofIds g) Store.empty.newIdentity.2 globalFrame "clock"
      (.callable (.native (.clock 0)))
    rw [hempty] at hstore
    exact congrArg (State.mk · globalFrame 0 sink clock) hstore.symm
  distances _ id := Std.ExtTreeMap.getElem?_empty.trans Std.ExtTreeMap.getElem?_empty.symm

theorem extend_id_zero (n : Nat) : extend id n 0 = id := by
  funext i
  rw [extend]
  split <;> rfl

/-- A session that uses up numbers stays alike to itself. -/
theorem Alike.skip_self (h : Alike id s s) (hn : s.nextId ≤ n) :
    Alike id { s with nextId := n } { s with nextId := n } := by
  have hfits : ∀ {g}, Fits id n n g → Fits id s.nextId s.nextId g := by
    intro g hg
    refine ⟨fun i hi => hg.below i (hi.trans_le hn), fun i hi => ?_⟩
    rcases Nat.lt_or_ge i n with hlt | hge
    · exact hi.trans_eq (hg.below i hlt).symm
    · exact hn.trans (hg.above i hge)
  exact ⟨Nat.le_refl _, rfl, fun i hi => hi, fun hg => h.state (hfits hg),
    fun hg => h.distances (hfits hg)⟩

/-- Nothing in a session has a number that is still to be given out. -/
theorem Reachable.alike (h : s.Reachable) : Alike id s s := by
  have hanswer : ∀ {s : Session}, s.Reachable → Alike id s s → ∀ request,
      Alike id (s.answer request).2 (s.answer request).2 := by
    intro s hs ih request
    cases hr : (s.answer request).1.report.isRejected with
    | true =>
      obtain ⟨n, hn, hskip⟩ := answer_of_rejected hr
      rw [hskip]
      exact ih.skip_self hn
    | false =>
      have hnext := (ih.answer hs.sound (Nat.add_zero _).symm hr).2
      rwa [extend_id_zero] at hnext
  induction h with
  | new sink clock maxDepth => exact alike_new sink clock maxDepth
  | run fuel source hs ih => exact hanswer hs ih (.run fuel source)
  | evaluate fuel source hs ih => exact hanswer hs ih (.evaluate fuel source)

/-- Requests to two sessions that are alike, of which the second is not given those that the first
    rejects. -/
theorem Alike.answers_accepted (h : Alike f s t) (ht : t.Reachable) (requests : List Request) :
    t.answers (s.accepted requests) = (s.answers requests).filter (!·.report.isRejected) := by
  induction requests generalizing f s t with
  | nil => rfl
  | cons request rest ih =>
    rw [accepted, answers]
    cases hr : (s.answer request).1.report.isRejected with
    | true =>
      obtain ⟨n, hn, hskip⟩ := answer_of_rejected hr
      rw [if_pos rfl, List.filter_cons_of_neg (by simp [hr]), hskip]
      exact ih (h.skip hn) ht
    | false =>
      obtain ⟨k, hk⟩ := Nat.exists_eq_add_of_le h.nextId
      obtain ⟨hsame, hnext⟩ := h.answer ht.sound hk hr
      rw [if_neg Bool.false_ne_true, List.filter_cons_of_pos (by simp [hr]), answers, hsame]
      exact congrArg _ (ih hnext (ht.answer request))

/-- Rejected sources are invisible. Of any sequence of requests to a session, leave out those that
    are rejected: all others are answered as before, with the same errors, the same output and
    values that look the same, although their expressions have other identities. -/
theorem answers_accepted_eq_filter (h : s.Reachable) (requests : List Request) :
    s.answers (s.accepted requests) = (s.answers requests).filter (!·.report.isRejected) :=
  h.alike.answers_accepted h requests

/-- A function with a local variable is declared before a source that is rejected, and called after
    it. -/
theorem answers_accepted_eq_filter_between :
    ∃ (s : Session) (before rejected after : Request), s.Reachable ∧
      (s.accepted [before, rejected, after]).length = 2 ∧
      (s.answers [before, rejected, after]).map (·.report.code) = [0, 65, 0] ∧
      s.answers (s.accepted [before, rejected, after]) =
        (s.answers [before, rejected, after]).filter (!·.report.isRejected) := by
  have h : Reachable (.new .unlimited (.still 0) 16) := .new _ _ _
  exact ⟨_, .run 100 "fun f() \x7b var a = 1; return a; \x7d".toUTF8.toList,
    .run 100 "\x7b var a; var a; \x7d".toUTF8.toList, .evaluate 100 "f() + 1".toUTF8.toList, h,
    by decide +kernel, by decide +kernel, answers_accepted_eq_filter h _⟩

end Session

end Lox
