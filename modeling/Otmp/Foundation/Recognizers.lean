import Otmp.Foundation.Checked

/-!
# Recognizers over a buffer

A recognizer moves a position forward over a buffer, refuses the input or panics. It recognizes a
language when it moves over the members of the language that stand at its position, and never
panics at a position inside the buffer. Recognizers compose as their languages do.
-/

namespace Foundation

variable {α β ε : Type}

/-- A list stands in a buffer at a position. -/
def StartsAt (xs : List α) (start : ℕ) (ys : List α) : Prop := ys <+: xs.drop start

section StartsAt

variable {xs ys zs : List α} {start : ℕ}

/-- The empty list starts everywhere, also behind the end. -/
theorem startsAt_nil (xs : List α) (start : ℕ) : StartsAt xs start [] := List.nil_prefix

/-- A list starts where its front starts, when its back starts behind that. -/
theorem startsAt_append :
    StartsAt xs start (ys ++ zs) ↔ StartsAt xs start ys ∧ StartsAt xs (start + ys.length) zs := by
  unfold StartsAt
  rw [← List.drop_drop]
  constructor
  · rintro ⟨rest, h⟩
    rw [← h, List.append_assoc]
    exact ⟨List.prefix_append _ _, by rw [List.drop_left]; exact List.prefix_append _ _⟩
  · rintro ⟨⟨rest, h⟩, htail⟩
    rw [← h] at htail ⊢
    rw [List.drop_left] at htail
    exact List.prefix_append_right_inj ys |>.mpr htail

/-- A list that starts inside a buffer ends inside it. -/
theorem StartsAt.le (h : StartsAt xs start ys) (hstart : start ≤ xs.length) :
    start + ys.length ≤ xs.length := by
  have hle := List.IsPrefix.length_le h
  rw [List.length_drop] at hle
  omega

/-- One element stands at the position where it is found. -/
theorem startsAt_singleton {a : α} : StartsAt xs start [a] ↔ xs[start]? = some a := by
  unfold StartsAt
  rw [← List.head?_drop]
  cases xs.drop start with
  | nil => simp
  | cons b bs => simp [eq_comm]

/-- The next elements of a buffer start where they are taken from, if it has that many. -/
theorem startsAt_slice {count : ℕ} (h : start + count ≤ xs.length) :
    StartsAt xs start (slice xs start count) ∧ (slice xs start count).length = count :=
  ⟨List.take_prefix _ _, length_slice h⟩

/-- All of a buffer stands at its start. -/
theorem startsAt_zero_of_length (h : StartsAt xs 0 ys) (hlength : ys.length = xs.length) :
    ys = xs := List.IsPrefix.eq_of_length h hlength

end StartsAt

/-- A recognizer of a language: from every position it moves behind an element of the language, and
behind nothing else, and it never panics. -/
structure Recognizes (xs : List α) (step : ℕ → Except (Fault ε) ℕ) (L : List α → Prop) : Prop where
  ok : ∀ {start next}, start ≤ xs.length →
    (step start = .ok next ↔ ∃ ys, L ys ∧ StartsAt xs start ys ∧ next = start + ys.length)
  safe : ∀ {start}, start ≤ xs.length → Safe (step start)

/-- A recognizer that also returns a value, with the language of each value. -/
structure Parses (xs : List α) (read : ℕ → Except (Fault ε) (β × ℕ)) (L : β → List α → Prop) :
    Prop where
  ok : ∀ {start b next}, start ≤ xs.length →
    (read start = .ok (b, next) ↔ ∃ ys, L b ys ∧ StartsAt xs start ys ∧ next = start + ys.length)
  safe : ∀ {start}, start ≤ xs.length → Safe (read start)

variable {xs : List α} {step next : ℕ → Except (Fault ε) ℕ}
  {read : ℕ → Except (Fault ε) (β × ℕ)} {L M : List α → Prop} {N : β → List α → Prop}

namespace Recognizes

/-- The same language under another description is recognized as well. -/
theorem congr (h : Recognizes xs step L) (hiff : ∀ ys, L ys ↔ M ys) : Recognizes xs step M where
  ok := fun hstart => by
    rw [h.ok hstart]
    exact exists_congr fun ys => and_congr_left fun _ => hiff ys
  safe := h.safe

/-- Staying at the position recognizes the empty list. -/
theorem stay : Recognizes xs (.ok : ℕ → Except (Fault ε) ℕ) (· = []) where
  ok := fun {start next} _ => by
    rw [Except.ok.injEq]
    constructor
    · rintro rfl
      exact ⟨[], rfl, startsAt_nil xs start, rfl⟩
    · rintro ⟨ys, rfl, -, rfl⟩
      rfl
  safe := fun _ => safe_ok _

/-- Refusing recognizes nothing, which is the language without elements. -/
theorem refuse (e : ε) : Recognizes xs (fun _ => .error (.refused e)) fun _ => False where
  ok := fun _ => ⟨fun h => (nomatch h), fun ⟨_, h, _⟩ => h.elim⟩
  safe := fun _ => safe_refused e

/-- A condition in front of a recognizer. -/
theorem guarded (h : Recognizes xs step L) (c : Prop) [Decidable c] (e : ε) :
    Recognizes xs (fun start => refuseIf c e >>= fun _ => step start) fun ys => ¬c ∧ L ys := by
  by_cases hc : c
  · have hstep : (fun start => refuseIf c e >>= fun _ => step start) =
        fun _ => .error (.refused e) := funext fun start => refuseIf_bind hc
    rw [hstep]
    exact (refuse e).congr fun ys => ⟨False.elim, fun h => h.1 hc⟩
  · have hstep : (fun start => refuseIf c e >>= fun _ => step start) = step :=
      funext fun start => passed_bind hc
    rw [hstep]
    exact h.congr fun ys => ⟨fun hys => ⟨hc, hys⟩, fun h => h.2⟩

/-- One recognizer after the other recognizes the concatenations of their languages. -/
theorem seq (h : Recognizes xs step L) (hnext : Recognizes xs next M) :
    Recognizes xs (fun start => step start >>= next)
      fun ys => ∃ front rest, ys = front ++ rest ∧ L front ∧ M rest where
  ok := fun {start last} hstart => by
    rw [bind_eq_ok]
    constructor
    · rintro ⟨middle, hstep, hlast⟩
      obtain ⟨front, hfront, hat, rfl⟩ := (h.ok hstart).mp hstep
      obtain ⟨rest, hrest, hat', rfl⟩ := (hnext.ok (hat.le hstart)).mp hlast
      refine ⟨front ++ rest, ⟨front, rest, rfl, hfront, hrest⟩,
        startsAt_append.mpr ⟨hat, hat'⟩, ?_⟩
      rw [List.length_append, Nat.add_assoc]
    · rintro ⟨_, ⟨front, rest, rfl, hfront, hrest⟩, hat, rfl⟩
      obtain ⟨hat, hat'⟩ := startsAt_append.mp hat
      refine ⟨_, (h.ok hstart).mpr ⟨front, hfront, hat, rfl⟩,
        (hnext.ok (hat.le hstart)).mpr ⟨rest, hrest, hat', ?_⟩⟩
      rw [List.length_append, Nat.add_assoc]
  safe := fun hstart => (h.safe hstart).bind fun middle hmiddle => by
    obtain ⟨front, -, hat, rfl⟩ := (h.ok hstart).mp hmiddle
    exact hnext.safe (hat.le hstart)

end Recognizes

namespace Parses

/-- The same languages under another description are parsed as well. -/
theorem congr {M : β → List α → Prop} (h : Parses xs read N) (hiff : ∀ b ys, N b ys ↔ M b ys) :
    Parses xs read M where
  ok := fun hstart => by
    rw [h.ok hstart]
    exact exists_congr fun ys => and_congr_left fun _ => hiff _ ys
  safe := h.safe

/-- A value that is given is read from nothing. -/
theorem give (b : β) : Parses xs (fun start => (.ok (b, start) : Except (Fault ε) (β × ℕ)))
    fun c ys => c = b ∧ ys = [] where
  ok := fun {start c next} _ => by
    rw [Except.ok.injEq, Prod.mk.injEq]
    constructor
    · rintro ⟨rfl, rfl⟩
      exact ⟨[], ⟨rfl, rfl⟩, startsAt_nil xs start, rfl⟩
    · rintro ⟨ys, ⟨rfl, rfl⟩, -, rfl⟩
      exact ⟨rfl, rfl⟩
  safe := fun _ => safe_ok _

/-- A value is read, and what follows depends on it. -/
theorem bind {step : β → ℕ → Except (Fault ε) ℕ} {M : β → List α → Prop} (h : Parses xs read N)
    (hstep : ∀ b, Recognizes xs (step b) (M b)) :
    Recognizes xs (fun start => read start >>= fun r => step r.1 r.2)
      fun ys => ∃ b front rest, ys = front ++ rest ∧ N b front ∧ M b rest where
  ok := fun {start last} hstart => by
    rw [bind_eq_ok]
    constructor
    · rintro ⟨⟨b, middle⟩, hread, hlast⟩
      obtain ⟨front, hfront, hat, rfl⟩ := (h.ok hstart).mp hread
      obtain ⟨rest, hrest, hat', rfl⟩ := ((hstep b).ok (hat.le hstart)).mp hlast
      refine ⟨front ++ rest, ⟨b, front, rest, rfl, hfront, hrest⟩,
        startsAt_append.mpr ⟨hat, hat'⟩, ?_⟩
      rw [List.length_append, Nat.add_assoc]
    · rintro ⟨_, ⟨b, front, rest, rfl, hfront, hrest⟩, hat, rfl⟩
      obtain ⟨hat, hat'⟩ := startsAt_append.mp hat
      refine ⟨_, (h.ok hstart).mpr ⟨front, hfront, hat, rfl⟩,
        ((hstep b).ok (hat.le hstart)).mpr ⟨rest, hrest, hat', ?_⟩⟩
      rw [List.length_append, Nat.add_assoc]
  safe := fun hstart => (h.safe hstart).bind fun ⟨b, middle⟩ hmiddle => by
    obtain ⟨front, -, hat, rfl⟩ := (h.ok hstart).mp hmiddle
    exact (hstep b).safe (hat.le hstart)

/-- A value that is read and dropped. -/
theorem drop (h : Parses xs read N) :
    Recognizes xs (fun start => (read start).map Prod.snd) fun ys => ∃ b, N b ys where
  ok := fun {start last} hstart => by
    rw [map_eq_ok]
    constructor
    · rintro ⟨⟨b, middle⟩, hread, rfl⟩
      obtain ⟨front, hfront, hat, rfl⟩ := (h.ok hstart).mp hread
      exact ⟨front, ⟨b, hfront⟩, hat, rfl⟩
    · rintro ⟨ys, ⟨b, hys⟩, hat, rfl⟩
      exact ⟨(b, _), (h.ok hstart).mpr ⟨ys, hys, hat, rfl⟩, rfl⟩
  safe := fun {start} hstart => by
    have hsafe := h.safe hstart
    unfold Safe at hsafe ⊢
    cases hread : read start with
    | error fault =>
      rw [hread] at hsafe
      exact fun heq => hsafe (congrArg Except.error (Except.error.inj heq))
    | ok r => exact fun heq => nomatch heq

end Parses

/-- Repeat a recognizer a fixed number of times, each time from where it stopped. -/
def repeatFrom (step : ℕ → Except (Fault ε) ℕ) : ℕ → ℕ → Except (Fault ε) ℕ
  | 0, start => .ok start
  | count + 1, start => step start >>= repeatFrom step count

/-- A given number of members of a language, one behind the other. -/
inductive Repeated (L : List α → Prop) : ℕ → List α → Prop
  | zero : Repeated L 0 []
  | succ {count : ℕ} {ys rest : List α} : L ys → Repeated L count rest →
      Repeated L (count + 1) (ys ++ rest)

/-- Repeating a recognizer recognizes repetitions of its language. -/
theorem Recognizes.repeatFrom (h : Recognizes xs step L) (count : ℕ) :
    Recognizes xs (repeatFrom step count) (Repeated L count) := by
  induction count with
  | zero =>
    refine Recognizes.stay.congr fun ys => ⟨?_, ?_⟩
    · rintro rfl
      exact .zero
    · intro h
      cases h
      rfl
  | succ count ih =>
    refine (h.seq ih).congr fun ys => ⟨?_, ?_⟩
    · rintro ⟨front, rest, rfl, hfront, hrest⟩
      exact .succ hfront hrest
    · intro h
      cases h with
      | succ hfront hrest => exact ⟨_, _, rfl, hfront, hrest⟩

end Foundation
