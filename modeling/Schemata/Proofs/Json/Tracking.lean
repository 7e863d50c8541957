import Schemata.Proofs.Json.Cursor
import Schemata.Proofs.Json.Reading

/-! The cursor and the text behind it. A reading by the cursor is compared to one that takes the text that
is left: both answer the same and go on in front of the same rest, or both stop for the same reason. What
else is kept is the history: the cursor does not leave the text, does not go back, and calls no routine
twice at one place. -/
namespace Schemata.Json.Cursor

/-- Nothing outside the text is touched, and a text that is converted has a digit. -/
def Act.Within (t : Text) : Act → Prop
  | .call _ | .move => True
  | .byte index => index < t.length
  | .compare start => start ≤ t.length
  | .cut start stop => start ≤ stop ∧ stop ≤ t.length
  | .integer token => Digits (Value.splitSign token).2

/-- The cursor has not gone back. Between two calls it has gone on, unless the earlier one is of `value`,
which hands its place on to another routine. -/
def Moment.Behind (later earlier : Moment) : Prop :=
  earlier.pos ≤ later.pos ∧
    ∀ routine routine', later.act = .call routine → earlier.act = .call routine' →
      earlier.pos < later.pos ∨ routine' = .value ∧ routine ≠ .value

namespace State

/-- The cursor is in the text, and so it was all the time. -/
structure Inside (t : Text) (s : State) : Prop where
  here : s.pos ≤ t.length
  past : ∀ m ∈ s.history, m.pos ≤ s.pos ∧ m.act.Within t
  behind : s.history.Pairwise Moment.Behind

/-- The cursor has gone on since all calls behind which a call of the routine must be. -/
def Ready (routine : Routine) (s : State) : Prop :=
  ∀ m ∈ s.history, ∀ routine', m.act = .call routine' →
    m.pos < s.pos ∨ routine' = .value ∧ routine ≠ .value

variable {t rest : Text} {s s' : State} {routine : Routine} {act : Act} {pos : Nat}

theorem Ready.other (ready : s.Ready .value) : s.Ready routine := by
  intro m member routine' call
  rcases ready m member routine' call with before | ⟨_, other⟩
  · exact .inl before
  · exact absurd rfl other

/-- What one more moment preserves. -/
theorem Inside.push (inside : s.Inside t) (ahead : s.pos ≤ pos) (within : pos ≤ t.length)
    (fits : act.Within t) (ready : ∀ routine, act = .call routine → s.Ready routine) :
    Inside t ⟨pos, ⟨pos, act⟩ :: s.history⟩ where
  here := within
  past := by
    intro m member
    rcases List.mem_cons.mp member with rfl | old
    · exact ⟨Nat.le_refl _, fits⟩
    · exact ⟨Nat.le_trans (inside.past m old).1 ahead, (inside.past m old).2⟩
  behind := by
    refine List.pairwise_cons.mpr ⟨fun m old => ⟨?_, ?_⟩, inside.behind⟩
    · exact Nat.le_trans (inside.past m old).1 ahead
    · intro routine routine' call call'
      exact (ready routine call m old routine' call').imp_left fun before =>
        Nat.lt_of_lt_of_le before ahead

/-- The cursor stands in front of `rest`. -/
structure Stands (t rest : Text) (s : State) : Prop where
  inside : s.Inside t
  left : t.drop s.pos = rest

theorem Stands.pos_add (stands : Stands t rest s) : s.pos + rest.length = t.length := by
  have here := stands.inside.here
  rw [← stands.left, List.length_drop]
  omega

theorem Stands.getElem? {b : UInt8} (stands : Stands t (b :: rest) s) : t[s.pos]? = some b := by
  rw [← List.head?_drop, stands.left, List.head?_cons]

theorem Stands.pos_lt {b : UInt8} (stands : Stands t (b :: rest) s) : s.pos < t.length := by
  have whole := stands.pos_add
  rw [List.length_cons] at whole
  omega

theorem Stands.not_pos_lt (stands : Stands t [] s) : ¬ s.pos < t.length := by
  have whole := stands.pos_add
  rw [List.length_nil] at whole
  omega

/-- Since `origin` the cursor has gone to the place in front of `rest`, without any call. -/
structure Moves (t : Text) (origin : State) (rest : Text) (s : State) : Prop extends
    Stands t rest s where
  forward : origin.pos ≤ s.pos
  calls : ∀ m ∈ s.history, ∀ routine, m.act = .call routine → m ∈ origin.history

variable {origin : State}

theorem Stands.still (stands : Stands t rest s) : Moves t s rest s where
  toStands := stands
  forward := Nat.le_refl _
  calls _ member _ _ := member

theorem Moves.push {rest' : Text} (moves : Moves t origin rest s) (act : Act) (ahead : s.pos ≤ pos)
    (within : pos ≤ t.length) (left : t.drop pos = rest') (fits : act.Within t)
    (quiet : ∀ routine, act ≠ .call routine) :
    Moves t origin rest' ⟨pos, ⟨pos, act⟩ :: s.history⟩ where
  inside := moves.inside.push ahead within fits fun routine call => absurd call (quiet routine)
  left := left
  forward := Nat.le_trans moves.forward ahead
  calls := by
    intro m member routine call
    rcases List.mem_cons.mp member with rfl | old
    · exact absurd call (quiet routine)
    · exact moves.calls m old routine call

theorem Moves.ready (moves : Moves t origin rest s) (ready : origin.Ready routine) :
    s.Ready routine := by
  intro m member routine' call
  refine (ready m (moves.calls m member routine' call) routine' call).imp_left fun before => ?_
  exact Nat.lt_of_lt_of_le before moves.forward

/-- The cursor stands in front of `rest`, where a value may be read. -/
structure Onward (t rest : Text) (s : State) : Prop extends Stands t rest s where
  ready : s.Ready .value

/-- Behind a byte that was passed, a value may be read. -/
theorem Moves.onward {front : Text} (moves : Moves t origin rest s) (stands : Stands t front origin)
    (shorter : rest.length < front.length) : Onward t rest s where
  toStands := moves.toStands
  ready m member routine' call := by
    have before := (stands.inside.past m (moves.calls m member routine' call)).1
    have whole := stands.pos_add
    have whole' := moves.pos_add
    exact .inl (by omega)

end State

open State

namespace Scan

def outcome (x : Scan α) (s : State) : Option (Except Raised α × State) :=
  StateT.run (ExceptT.run x) s

/-- Started in `s`, the reading ends, answers `a` and leaves `s'`. -/
def Answers (x : Scan α) (s : State) (a : α) (s' : State) : Prop := x.outcome s = some (.ok a, s')

/-- Started in `s`, the reading is broken off and leaves `s'`. -/
def Breaks (x : Scan α) (s : State) (raised : Raised) (s' : State) : Prop :=
  x.outcome s = some (.error raised, s')

variable {x : Scan α} {f : α → Scan β} {s s' s'' : State} {a : α} {b : β} {raised : Raised}

theorem outcome_bind : (x >>= f).outcome s = (x.outcome s).bind fun (answer, s') =>
    match answer with
    | .ok a => (f a).outcome s'
    | .error raised => some (.error raised, s') := by
  change ((x.outcome s).bind fun (answer, s') => StateT.run (ExceptT.bindCont f answer) s') = _
  refine congrArg _ (funext fun (answer, s') => ?_)
  cases answer <;> rfl

theorem Answers.outcome_bind (first : x.Answers s a s') :
    (x >>= f).outcome s = (f a).outcome s' := by
  rw [Scan.outcome_bind, show x.outcome s = _ from first]
  rfl

theorem Breaks.bind (first : x.Breaks s raised s') : (x >>= f).Breaks s raised s' := by
  rw [Breaks, Scan.outcome_bind, show x.outcome s = _ from first]
  rfl

/-- The reading does what was expected of the text in front of which the cursor stands: it answers the
same and leaves the cursor as it should be in front of the same rest, or it is broken off by the fault
that was expected. In either case it ends, and the cursor has been inside the text all the time. -/
def Tracks (t : Text) (x : Scan α) (s : State) (expected : Except Stop (α × Text))
    (leaves : Text → State → Prop) : Prop :=
  match expected with
  | .ok (a, rest) => ∃ s', x.Answers s a s' ∧ leaves rest s'
  | .error stop => ∃ s', x.Breaks s (.fault (stop.fault t)) s' ∧ s'.Inside t

variable {t rest : Text} {stop : Stop} {expected : Except Stop (β × Text)}
  {leaves leaves' : Text → State → Prop}

theorem tracks_pure (left : leaves rest s) : (pure a : Scan α).Tracks t s (.ok (a, rest)) leaves :=
  ⟨s, rfl, left⟩

theorem Answers.tracks_bind (first : x.Answers s a s') (next : (f a).Tracks t s' expected leaves) :
    (x >>= f).Tracks t s expected leaves := by
  have same := first.outcome_bind (f := f)
  cases expected with
  | ok read =>
    obtain ⟨s'', answered, left⟩ := next
    exact ⟨s'', same.trans answered, left⟩
  | error stop =>
    obtain ⟨s'', broken, inside⟩ := next
    exact ⟨s'', same.trans broken, inside⟩

theorem Tracks.followed (first : x.Tracks t s (.ok (a, rest)) leaves)
    (next : ∀ s', leaves rest s' → (f a).Tracks t s' expected leaves') :
    (x >>= f).Tracks t s expected leaves' := by
  obtain ⟨s', answered, left⟩ := first
  exact answered.tracks_bind (next s' left)

theorem Tracks.stopped (first : x.Tracks t s (.error stop) leaves) :
    (x >>= f).Tracks t s (.error stop) leaves' := by
  obtain ⟨s', broken, inside⟩ := first
  exact ⟨s', broken.bind, inside⟩

/-- A reading goes on where what is expected goes on, and stops where that stops. -/
theorem Tracks.step {read : Except Stop (α × Text)} (first : x.Tracks t s read leaves)
    (stops : ∀ stop, read = .error stop → expected = .error stop)
    (goes : ∀ a rest s', read = .ok (a, rest) → leaves rest s' →
      (f a).Tracks t s' expected leaves') : (x >>= f).Tracks t s expected leaves' := by
  cases read with
  | error stop => exact stops stop rfl ▸ first.stopped
  | ok read => exact first.followed fun s' left => goes _ _ s' rfl left

/-- What is expected of a reading that goes on is expected to go on as well. -/
theorem Tracks.bind {read : Except Stop (γ × Text)} (told : γ → α)
    {more : γ × Text → Except Stop (β × Text)}
    (first : x.Tracks t s (read.map fun (c, rest) => (told c, rest)) leaves)
    (next : ∀ c rest s', read = .ok (c, rest) → leaves rest s' →
      (f (told c)).Tracks t s' (more (c, rest)) leaves') :
    (x >>= f).Tracks t s (read >>= more) leaves' := by
  cases read with
  | error stop => exact first.stopped
  | ok read => exact first.followed fun s' left => next _ _ s' rfl left

theorem Tracks.map {expected : Except Stop (α × Text)} (told : α → β)
    (first : x.Tracks t s expected leaves) : (x >>= fun a => pure (told a)).Tracks t s
      (expected.map fun (a, rest) => (told a, rest)) leaves := by
  cases expected with
  | error stop => exact first.stopped
  | ok read => exact first.followed fun s' left => tracks_pure left

/-- A reading that is broken off may be gone on with. -/
theorem Breaks.tracks_tryCatch {handle : Raised → Scan α} {expected : Except Stop (α × Text)}
    (first : x.Breaks s raised s') (handled : (handle raised).Tracks t s' expected leaves) :
    (tryCatch x handle).Tracks t s expected leaves := by
  have same : (tryCatch x handle).outcome s = (handle raised).outcome s' := by
    change (x.outcome s >>= fun (answer, s') => _) = _
    rw [show x.outcome s = _ from first]
    rfl
  cases expected with
  | ok read =>
    obtain ⟨s'', answered, left⟩ := handled
    exact ⟨s'', same.trans answered, left⟩
  | error stop =>
    obtain ⟨s'', broken, inside⟩ := handled
    exact ⟨s'', same.trans broken, inside⟩

theorem Answers.tryCatch {handle : Raised → Scan α} (first : x.Answers s a s') :
    (tryCatch x handle).Answers s a s' := by
  change (x.outcome s >>= fun (answer, s') => _) = _
  rw [show x.outcome s = _ from first]
  rfl

theorem Tracks.mono {expected : Except Stop (α × Text)} (tracks : x.Tracks t s expected leaves)
    (weaker : ∀ a rest s', expected = .ok (a, rest) → leaves rest s' → leaves' rest s') :
    x.Tracks t s expected leaves' := by
  cases expected with
  | ok read =>
    obtain ⟨s', answered, left⟩ := tracks
    exact ⟨s', answered, weaker _ _ _ rfl left⟩
  | error stop => exact tracks

end Scan

open Scan

variable {t rest front r : Text} {origin s : State} {b : UInt8}

section Primitives

theorem answers_position (s : State) : position.Answers s s.pos s := rfl

theorem tracks_advance (front : Text) (moves : Moves t origin (front ++ rest) s) {count : Nat}
    (long : front.length = count) :
    (advance count).Tracks t s (.ok ((), rest)) (Moves t origin) := by
  have whole := moves.pos_add
  rw [List.length_append] at whole
  refine ⟨_, rfl, moves.push .move (Nat.le_add_right _ _) (by omega) ?_ trivial nofun⟩
  rw [← List.drop_drop, moves.left, ← long, List.drop_left]

theorem tracks_byteAt (moves : Moves t origin rest s) {index : Nat} (found : t[index]? = some b) :
    (byteAt t index).Tracks t s (.ok (b, rest)) (Moves t origin) := by
  obtain ⟨bound, _⟩ := List.getElem?_eq_some_iff.mp found
  have noted := moves.push (.byte index) (Nat.le_refl _) moves.inside.here moves.left bound nofun
  refine ⟨_, ?_, noted⟩
  rw [Answers, byteAt, found]
  rfl

theorem tracks_startsAt (moves : Moves t origin rest s) (word : Text) :
    (startsAt t word s.pos).Tracks t s (.ok (rest.take word.length == word, rest)) (Moves t origin) := by
  have here := moves.inside.here
  have noted := moves.push (.compare s.pos) (Nat.le_refl _) here moves.left here nofun
  refine ⟨_, ?_, noted⟩
  rw [Answers, startsAt, if_pos here, moves.left]
  rfl

/-- Between an earlier place and the cursor stands what was passed. -/
theorem tracks_cut (moves : Moves t origin rest s) {start stop : Nat} (left : t.drop start = front ++ r)
    (long : start + front.length = stop) (within : stop ≤ t.length) :
    (cut t start stop).Tracks t s (.ok (front, rest)) (Moves t origin) := by
  have ahead : start ≤ stop := long ▸ Nat.le_add_right _ _
  have noted := moves.push (.cut start stop) (Nat.le_refl _) moves.inside.here moves.left
    ⟨ahead, within⟩ nofun
  refine ⟨_, ?_, noted⟩
  rw [Answers, cut, if_pos (Nat.le_trans ahead within), left, ← long, Nat.add_sub_cancel_left,
    List.take_left]
  rfl

/-- A routine is called where it may be; `value` hands its place on. -/
theorem tracks_call {routine : Routine} (stands : Stands t rest s) (ready : s.Ready routine) :
    (note (.call routine)).Tracks t s (.ok ((), rest)) fun rest s' => Stands t rest s' ∧
      (routine = .value → ∀ other, other ≠ .value → s'.Ready other) := by
  refine ⟨_, rfl, ⟨?_, stands.left⟩, ?_⟩
  · exact stands.inside.push (Nat.le_refl _) stands.inside.here trivial (by rintro _ ⟨⟩; exact ready)
  · rintro rfl other different m member routine call
    rcases List.mem_cons.mp member with rfl | old
    · cases call
      exact .inr ⟨rfl, different⟩
    · exact ready.other m old routine call

end Primitives

end Schemata.Json.Cursor
