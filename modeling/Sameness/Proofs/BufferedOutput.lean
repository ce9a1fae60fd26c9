import Sameness.Proofs.Session
import Sameness.Proofs.SinkWrites

/-!
What an engine with a buffer hands out: the texts that were displayed, none of them lost, doubled or
out of order.
-/

namespace Sameness

/-! ### Bytes -/

theorem Utf8.decode_toUTF8 (s : String) : decode s.toUTF8 = s := by
  have hvalid : String.fromUTF8? s.toUTF8 = some s := by
    unfold String.fromUTF8?
    exact dif_pos s.isValidUTF8
  simp only [decode, hvalid]

/-! ### One call -/

namespace Builtin

/-- The text that a call puts into the buffer, as its answer tells. -/
def shown (st : Store) (b : Builtin) (args : List Value) (a : Answer) : Run String :=
  match b, args, a with
  | .display, [v], .ok _ => st.display v
  | .newline, [], .ok _ => pure "\n"
  | _, _, _ => pure ""

theorem shown_of_silent {st : Store} {b : Builtin} {args : List Value} {a : Answer}
    (hdisplay : b ≠ .display) (hnewline : b ≠ .newline) : b.shown st args a = pure "" := by
  cases b with
  | display => exact absurd rfl hdisplay
  | newline => exact absurd rfl hnewline
  | _ => rfl

theorem shown_of_error (st : Store) (b : Builtin) (args : List Value) (f : Failure) :
    b.shown st args (.error f) = pure "" := by
  unfold shown
  split <;> first | rfl | contradiction

/-- With the right number of arguments and room without end, a builtin fails in no way, and puts out
what it is to show, whatever was there before. -/
theorem run_spec {st : Store} {b : Builtin} {args : List Value} {bytes : ByteArray} {a : Answer}
    {sink : Sink} (haccepts : b.arity.accepts args.length = true)
    (h : (b.run st args (.unlimited bytes)).Returns (a, sink)) :
    (∃ v, a = .ok v) ∧ ∃ text, (b.shown st args a).Returns text ∧
      sink = .unlimited (bytes ++ text.toUTF8) ∧
      ∀ other, (b.run st args (.unlimited other)).Returns
        (a, .unlimited (other ++ text.toUTF8)) := by
  cases b with
  | compare p | member p | assoc p =>
    obtain ⟨v, w, rfl⟩ := List.length_eq_two.1 (beq_iff_eq.1 haccepts)
    simp only [run_compare, run_member, run_assoc, Run.returns_bind, Run.returns_pure,
      Prod.mk.injEq] at h ⊢
    obtain ⟨r, hr, rfl, rfl⟩ := h
    exact ⟨⟨_, rfl⟩, "", Run.returns_pure.2 rfl, by simp, fun other => ⟨r, hr, rfl, by simp⟩⟩
  | display =>
    obtain ⟨v, rfl⟩ := List.length_eq_one_iff.1 (beq_iff_eq.1 haccepts)
    simp only [run_display, Run.returns_bind, Run.returns_pure, Store.returns_displayTo_iff] at h ⊢
    obtain ⟨_, ⟨text, htext, rfl⟩, hwritten⟩ := h
    cases hwritten
    exact ⟨⟨_, rfl⟩, text, htext, rfl, fun other => ⟨_, ⟨text, htext, rfl⟩, rfl⟩⟩
  | newline =>
    obtain rfl := List.length_eq_zero_iff.1 (beq_iff_eq.1 haccepts)
    simp only [run_newline, Run.returns_bind, Run.returns_pure,
      Sink.returns_write_unlimited_iff] at h ⊢
    obtain ⟨_, rfl, hwritten⟩ := h
    cases hwritten
    exact ⟨⟨_, rfl⟩, "\n", Run.returns_pure.2 rfl, rfl, fun other => ⟨_, rfl, rfl⟩⟩

end Builtin

namespace Engine

variable {e e' : Engine} {st : Store}

theorem callBuiltin_spec {b : Builtin} {args : List Value} {a : Answer}
    (h : (e.callBuiltin st b args).Returns (a, e')) :
    e'.target = e.target ∧ (∀ text, a ≠ .error (.io text)) ∧
      ∃ text, (b.shown st args a).Returns text ∧ e'.pending = e.pending ++ text.toUTF8 := by
  by_cases haccepts : b.arity.accepts args.length = true
  · obtain ⟨sink, lines, hrun, -, rfl⟩ := (returns_callBuiltin_iff haccepts).1 h
    obtain ⟨⟨v, rfl⟩, text, htext, rfl, -⟩ := Builtin.run_spec haccepts hrun
    exact ⟨rfl, nofun, text, htext, rfl⟩
  · rw [callBuiltin_of_not_accepts haccepts] at h
    cases Run.returns_pure.1 h
    refine ⟨rfl, nofun, "", ?_, by simp⟩
    rw [Builtin.shown_of_error, Run.returns_pure]

end Engine

/-! ### One operation -/

/-- The text that an operation puts into the buffer. -/
def Operation.shown (st : Store) (op : Operation) (r : Reply) : Run String :=
  match op.builtin?, r with
  | some (b, args), .answer a => b.shown st args a
  | _, _ => pure ""

theorem Operation.shown_of_answer {st : Store} {op : Operation} {b : Builtin} {args : List Value}
    {a : Answer} (h : op.builtin? = some (b, args)) :
    op.shown st (.answer a) = b.shown st args a := by
  simp only [shown, h]

theorem Operation.shown_of_none {st : Store} {op : Operation} (h : op.builtin? = none)
    (r : Reply) : op.shown st r = pure "" := by
  simp only [shown, h]

/-- The text that a reply hands out. -/
def Reply.handed : Reply → String
  | answer _ => ""
  | taken t => t.output

namespace Engine

variable {e e' : Engine} {st : Store} {op : Operation} {r : Reply}

theorem perform_answer_spec (hop : op ≠ .take) (h : (e.perform st op).Returns (r, e')) :
    e'.target = e.target ∧ ∃ a, r = .answer a ∧ (∀ text, a ≠ .error (.io text)) ∧
      ∃ text, (op.shown st r).Returns text ∧ e'.pending = e.pending ++ text.toUTF8 := by
  cases hb : op.builtin? with
  | none =>
    obtain ⟨a, hperform, hio⟩ := exists_perform_eq st hb hop
    rw [hperform] at h
    cases Run.returns_pure.1 h
    refine ⟨rfl, a, rfl, hio, "", ?_, by simp⟩
    rw [Operation.shown_of_none hb, Run.returns_pure]
  | some p =>
    obtain ⟨b, args⟩ := p
    obtain ⟨a, ha, rfl⟩ := (returns_perform_iff hb).1 h
    obtain ⟨htarget, hio, htext⟩ := callBuiltin_spec ha
    rw [Operation.shown_of_answer hb]
    exact ⟨htarget, a, rfl, hio, htext⟩

/-- The buffer of an engine holds a text. -/
structure Holds (e : Engine) (text : String) : Prop where
  target : e.target = .buffer
  pending : e.pending = text.toUTF8

theorem Holds.take {text : String} (h : e.Holds text) :
    e.takeOutput = (⟨text, ""⟩, { e with pending := .empty }) := by
  simp only [takeOutput, h.target, h.pending, Utf8.decode_toUTF8]

/-- What an operation hands out was in the buffer, what it shows comes behind that, and the rest is
in the buffer afterwards. -/
theorem Holds.perform {text : String} (h : e.Holds text)
    (hperform : (e.perform st op).Returns (r, e')) :
    ∃ rest shown, (op.shown st r).Returns shown ∧ e'.Holds rest ∧
      r.handed ++ rest = text ++ shown := by
  by_cases hop : op = .take
  · subst hop
    cases Run.returns_pure.1 hperform
    rw [h.take]
    refine ⟨"", "", ?_, ⟨h.target, rfl⟩, rfl⟩
    rw [Operation.shown_of_none rfl, Run.returns_pure]
  · obtain ⟨htarget, a, rfl, -, shown, hshown, hpending⟩ := perform_answer_spec hop hperform
    refine ⟨text ++ shown, shown, hshown, ⟨htarget.trans h.target, ?_⟩, by simp [Reply.handed]⟩
    rw [hpending, h.pending]
    simp

/-! ### Whole runs -/

/-- The texts that operations show, one behind the other. -/
def shownIn : List (Store × Operation × Reply) → Run String
  | [] => pure ""
  | (st, op, r) :: steps => do return (← op.shown st r) ++ (← shownIn steps)

/-- The texts that replies hand out, one behind the other. -/
def handedIn : List (Store × Operation × Reply) → String
  | [] => ""
  | (_, _, r) :: steps => r.handed ++ handedIn steps

theorem Session.holds {text : String} {steps : List (Store × Operation × Reply)}
    (h : Session e steps e') (hstart : e.Holds text) :
    ∃ rest shown, (shownIn steps).Returns shown ∧ e'.Holds rest ∧
      handedIn steps ++ rest = text ++ shown := by
  induction h generalizing text with
  | nil e => exact ⟨text, "", Run.returns_pure.2 rfl, hstart, by simp [handedIn]⟩
  | @cons e e₁ e' st op r steps hperform hrest ih =>
    obtain ⟨between, shown, hshown, hbetween, heq⟩ := hstart.perform hperform
    obtain ⟨rest, shown', hshown', hrest, heq'⟩ := ih hbetween
    refine ⟨rest, shown ++ shown', ?_, hrest, ?_⟩
    · simp only [shownIn, Run.returns_bind, Run.returns_pure]
      exact ⟨shown, hshown, shown', hshown', rfl⟩
    · calc handedIn ((st, op, r) :: steps) ++ rest
          = r.handed ++ (handedIn steps ++ rest) := String.append_assoc
        _ = r.handed ++ between ++ shown' := by rw [heq', String.append_assoc]
        _ = text ++ (shown ++ shown') := by rw [heq, String.append_assoc]

/-- What an operation may do to an engine with a buffer: it never fails for want of room, only what
succeeds puts something out, and what is taken is the buffer as it is, without a byte replaced. -/
structure BufferLaw (e : Engine) (op : Operation) (r : Reply) (e' : Engine) : Prop where
  no_io (text : String) : r ≠ .answer (.error (.io text))
  failed (f : Failure) : r = .answer (.error f) → e'.pending = e.pending
  silent (b : Builtin) (args : List Value) : op.builtin? = some (b, args) → b ≠ .display →
    b ≠ .newline → e'.pending = e.pending
  take : op = .take →
    ∃ text, r = .taken ⟨text, ""⟩ ∧ text.toUTF8 = e.pending ∧ e'.pending = .empty

theorem Holds.bufferLaw {text : String} (h : e.Holds text)
    (hperform : (e.perform st op).Returns (r, e')) : e.BufferLaw op r e' := by
  by_cases hop : op = .take
  · subst hop
    cases Run.returns_pure.1 hperform
    rw [h.take]
    exact ⟨nofun, nofun, nofun, fun _ => ⟨text, rfl, h.pending.symm, rfl⟩⟩
  · obtain ⟨-, a, rfl, hio, shown, hshown, hpending⟩ := perform_answer_spec hop hperform
    have hsame : op.shown st (.answer a) = pure "" → e'.pending = e.pending := by
      intro hnothing
      rw [hnothing, Run.returns_pure] at hshown
      rw [hpending, ← hshown]
      simp
    refine ⟨fun text htext => hio text (Reply.answer.inj htext), fun f hf => ?_,
      fun b args hb hdisplay hnewline => ?_, fun htake => absurd htake hop⟩
    · cases hf
      apply hsame
      cases hb : op.builtin? with
      | none => exact Operation.shown_of_none hb _
      | some p => rw [Operation.shown_of_answer hb, Builtin.shown_of_error]
    · apply hsame
      rw [Operation.shown_of_answer hb, Builtin.shown_of_silent hdisplay hnewline]

/-- After any run on a new engine, all that was handed out and then what is still in the buffer is
what was shown, in that order; and the next operation does to the buffer only what it may. -/
theorem buffered_output {tracing : Bool} {steps : List (Store × Operation × Reply)}
    (h : Session (create .buffer tracing) steps e) :
    (∃ rest, e.pending = rest.toUTF8 ∧ (shownIn steps).Returns (handedIn steps ++ rest)) ∧
      ∀ st op r e', (e.perform st op).Returns (r, e') → e.BufferLaw op r e' := by
  have hstart : (create .buffer tracing).Holds "" := ⟨rfl, rfl⟩
  obtain ⟨rest, shown, hshown, hrest, heq⟩ := h.holds hstart
  rw [String.empty_append] at heq
  exact ⟨⟨rest, hrest.pending, heq ▸ hshown⟩, fun st op r e' hperform =>
    hrest.bufferLaw hperform⟩

/-- A list with a string in it. -/
def greeting : Store :=
  ⟨#[.string "two", .pair (.string 0) .nil, .pair (.boolean true) (.pair 1)], .empty⟩

def greetingOperations : List Operation :=
  [.call "display" [.pair 2], .call "display" [], .call "print" [.pair 2],
    .apply (.builtin .newline) [], .take, .procedure "display", .call "eq?" [.pair 2, .pair 1],
    .call "display" [.nil], .apply (.code 7) []]

theorem buffered_output_greeting : ∃ steps e, Session (create .buffer false) steps e ∧
    steps.map (fun s => s.2.1) = greetingOperations ∧
    ∃ rest, e.pending = rest.toUTF8 ∧ handedIn steps ++ rest = "(#t two)\n'()" := by
  obtain ⟨steps, e, h, hoperations, hshown⟩ : ∃ steps e, Session (create .buffer false) steps e ∧
      steps.map (fun s => s.2.1) = greetingOperations ∧
      (shownIn steps).Returns "(#t two)\n'()" := by
    exact ⟨greetingOperations.zipWith (fun op r => (greeting, op, r))
      [_, _, _, _, _, _, _, _, _], _,
      .cons ⟨8, rfl⟩ (.cons ⟨0, rfl⟩ (.cons ⟨0, rfl⟩ (.cons ⟨8, rfl⟩ (.cons ⟨0, rfl⟩
        (.cons ⟨0, rfl⟩ (.cons ⟨8, rfl⟩ (.cons ⟨8, rfl⟩ (.cons ⟨0, rfl⟩ (.nil _))))))))),
      rfl, ⟨8, rfl⟩⟩
  obtain ⟨⟨rest, hpending, hall⟩, -⟩ := buffered_output h
  exact ⟨steps, e, h, hoperations, rest, hpending, hall.unique hshown⟩

end Engine

end Sameness
