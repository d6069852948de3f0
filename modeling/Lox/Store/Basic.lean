import Lox.Value.Basic
import Lox.Value.Error

/-!
# The store

What programs change lies in the store: frames, which bind names, and the fields of instances.
Frames are numbered in the order in which they are made, and every frame but the global one is
enclosed by an older one, so from each frame a chain of frames leads out to the global frame.

A name is looked up in two ways. The *searching* way goes out from a frame to the first frame that
binds the name (`Store.find?`, `Store.assign?`), and it is an error if there is none (`Store.get`,
`Store.assign`). The *addressed* way goes out by a distance that is known in advance, and expects
the name there (`Store.getAt`, `Store.assignAt`).

* `Store.chain` is the list of the frames from a frame outwards;
* `frame_define`, `frame_newFrame`: what a frame is after an operation.
-/

namespace Lox

/-- A frame. -/
structure Frame where
  /-- The names that it binds. -/
  bindings : Bindings Value
  /-- The frame around it. -/
  enclosing : Option Nat
  deriving Repr

/-- What programs can change. -/
structure Store where
  /-- The frames, by number. -/
  frames : Array Frame
  /-- The fields of the instances, by number. -/
  fields : Array (Bindings Value)
  /-- The identity of the next function or class. -/
  nextIdentity : Nat
  deriving Repr

/-- The number of the global frame. -/
def globalFrame : Nat := 0

namespace Store

/-- A store with nothing but a global frame, in which no names are bound. -/
def empty : Store := { frames := #[⟨∅, none⟩], fields := #[], nextIdentity := 0 }

/-- The frame with a number; a number that was not given out has no names. -/
def frame (s : Store) (f : Nat) : Frame := s.frames.getD f ⟨∅, none⟩

/-- Makes a frame. (Operations take a store apart before they change a part of it: nothing else then
    holds that part, and it is changed in place.) -/
def newFrame (s : Store) (bindings : Bindings Value) (enclosing : Nat) : Nat × Store :=
  match s with
  | ⟨frames, fields, nextIdentity⟩ =>
    (frames.size, ⟨frames.push ⟨bindings, some enclosing⟩, fields, nextIdentity⟩)

/-- Binds a name in a frame, whatever it was bound to before. -/
def define (s : Store) (f : Nat) (name : String) (value : Value) : Store :=
  match s with
  | ⟨frames, fields, nextIdentity⟩ =>
    ⟨frames.modify f fun ⟨bindings, enclosing⟩ => ⟨bindings.insert name value, enclosing⟩,
      fields, nextIdentity⟩

/-- The frames from `f` outwards, at most `fuel` of them behind `f`. -/
def chainUpTo (s : Store) : (fuel : Nat) → Nat → List Nat
  | 0, f => [f]
  | fuel + 1, f =>
    match (s.frame f).enclosing with
    | none => [f]
    | some outer => f :: chainUpTo s fuel outer

/-- The frames from `f` outwards. (Each is older than the one before, so their numbers fall.) -/
def chain (s : Store) (f : Nat) : List Nat := s.chainUpTo f f

/-- The first frame from `f` outwards that binds a name. -/
def holder? (s : Store) (f : Nat) (name : String) : Option Nat :=
  (s.chain f).find? fun g => (s.frame g).bindings.contains name

/-- What a name is bound to in the first frame from `f` outwards that binds it. -/
def find? (s : Store) (f : Nat) (name : String) : Option Value :=
  (s.holder? f name).bind fun g => (s.frame g).bindings.get? name

/-- Binds a name to another value in the first frame from `f` outwards that binds it. -/
def assign? (s : Store) (f : Nat) (name : String) (value : Value) : Option Store :=
  (s.holder? f name).map fun g => s.define g name value

/-- The value of a name, which some frame from `f` outwards has to bind. -/
def get (s : Store) (f : Nat) (name : Lexeme) : Except RuntimeError Value :=
  match s.find? f name.text with
  | some value => .ok value
  | none => .error (.raised name.line (.undefinedVariable name.text))

/-- Binds a name to another value, where some frame from `f` outwards has to bind it. -/
def assign (s : Store) (f : Nat) (name : Lexeme) (value : Value) : Except RuntimeError Store :=
  match s.assign? f name.text value with
  | some s => .ok s
  | none => .error (.raised name.line (.undefinedVariable name.text))

/-- The frame that is `left` frames out from `f`, as a part of the way of `distance`. -/
def walkOut (s : Store) (distance : Nat) : (left : Nat) → Nat → Except Fault Nat
  | 0, f => .ok f
  | left + 1, f =>
    match (s.frame f).enclosing with
    | none => .error (.chainEnded (distance - (left + 1)) distance)
    | some outer => walkOut s distance left outer

/-- The frame that is `distance` frames out from `f`. -/
def ancestor (s : Store) (f : Nat) (distance : Nat) : Except Fault Nat :=
  s.walkOut distance distance f

/-- What a name is bound to in the frame that is `distance` frames out from `f`. -/
def getAt (s : Store) (f : Nat) (distance : Nat) (name : String) : Except Fault Value :=
  match s.ancestor f distance with
  | .error fault => .error fault
  | .ok g =>
    match (s.frame g).bindings.get? name with
    | some value => .ok value
    | none => .error (.nameMissing name distance)

/-- Binds a name in the frame that is `distance` frames out from `f`. -/
def assignAt (s : Store) (f : Nat) (distance : Nat) (name : String) (value : Value) :
    Except Fault Store :=
  match s.ancestor f distance with
  | .error fault => .error fault
  | .ok g => .ok (s.define g name value)

/-- Makes an instance without fields. -/
def newInstance (s : Store) : Nat × Store :=
  match s with
  | ⟨frames, fields, nextIdentity⟩ => (fields.size, ⟨frames, fields.push ∅, nextIdentity⟩)

/-- The field of an instance. -/
def field? (s : Store) (i : Nat) (name : String) : Option Value :=
  (s.fields.getD i ∅).get? name

/-- Sets a field of an instance, which makes the field if it is not there. -/
def setField (s : Store) (i : Nat) (name : String) (value : Value) : Store :=
  match s with
  | ⟨frames, fields, nextIdentity⟩ =>
    ⟨frames, fields.modify i fun own => own.insert name value, nextIdentity⟩

/-- An identity that nothing else has. -/
def newIdentity (s : Store) : Nat × Store :=
  match s with
  | ⟨frames, fields, nextIdentity⟩ => (nextIdentity, ⟨frames, fields, nextIdentity + 1⟩)

/-! ### What operations do to frames -/

/-- Binding a name changes that frame in that name, and nothing else. -/
theorem frame_define {s : Store} {f : Nat} (hf : f < s.frames.size) (name : String)
    (value : Value) (g : Nat) :
    (s.define f name value).frame g =
      if g = f then { s.frame f with bindings := (s.frame f).bindings.insert name value }
      else s.frame g := by
  by_cases h : g = f
  · subst h
    simp [define, frame, Array.getD, hf, Array.getElem_modify]
  · by_cases hg : g < s.frames.size
    · simp [define, frame, Array.getD, hg, h, Array.getElem_modify, Ne.symm h]
    · simp [define, frame, Array.getD, hg, h]

/-- A new frame is enclosed as told, and the others stay as they are. -/
theorem frame_newFrame (s : Store) (bindings : Bindings Value) (enclosing g : Nat) :
    (s.newFrame bindings enclosing).2.frame g =
      if g = s.frames.size then ⟨bindings, some enclosing⟩ else s.frame g := by
  by_cases h : g = s.frames.size
  · subst h
    simp [newFrame, frame, Array.getD]
  · by_cases hg : g < s.frames.size
    · have hg' : g < s.frames.size + 1 := by omega
      simp [newFrame, frame, Array.getD, hg, hg', h, Array.getElem_push_lt hg]
    · have hg' : ¬ g < s.frames.size + 1 := by omega
      simp [newFrame, frame, Array.getD, hg, hg', h]

end Store

end Lox
