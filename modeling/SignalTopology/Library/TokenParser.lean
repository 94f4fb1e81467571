import Mathlib.Data.List.Basic

/-!
# Parsers over a stream of tokens

A parser reads a stream that always has a current token: moving past the last
one is impossible, so no lookup can fail. `iterate` is the `while` loop of such a
parser and `many` the one that collects items. `Yields` says what a run returns and
where it stops; the rules below follow the way a parser is put together.
-/

namespace TokenParser

variable {τ ε α β σ ρ : Type}

/-- The current token and the ones after it. -/
structure Tokens (τ : Type) where
  current : τ
  rest : List τ

namespace Tokens

/-- The stream after the current token; the last token is never left. -/
def advance : Tokens τ → Tokens τ
  | ⟨_, t :: ts⟩ => ⟨t, ts⟩
  | ⟨t, []⟩ => ⟨t, []⟩

def toList (ts : Tokens τ) : List τ := ts.current :: ts.rest

theorem toList_inj {ts us : Tokens τ} (same : ts.toList = us.toList) : ts = us := by
  obtain ⟨current, rest⟩ := ts
  cases same
  rfl

/-- What is left of a stream that goes on. -/
theorem rest_eq {ts : Tokens τ} (more : ts.rest ≠ []) : ts.rest = ts.advance.toList := by
  obtain ⟨current, rest⟩ := ts
  cases rest with
  | nil => exact absurd rfl more
  | cons next rest => rfl

/-- The last token of a stream lies behind any part of it that leaves a stream. -/
theorem split_last {ts : Tokens τ} {front body : List τ} {last : τ}
    (whole : body ++ [last] = front ++ ts.toList) : ∃ more, body = front ++ more := by
  obtain ⟨more, longer, tail⟩ | ⟨more, shorter, _⟩ := List.append_eq_append_iff.mp whole
  · have length := congrArg List.length tail
    have none_left : more = [] := by
      apply List.eq_nil_of_length_eq_zero
      simp only [List.length_cons, List.length_nil, List.length_append, toList] at length
      omega
    exact ⟨[], by rw [longer, none_left, List.append_nil, List.append_nil]⟩
  · exact ⟨more, shorter⟩

@[simp] theorem advance_cons (s t : τ) (ts : List τ) : advance ⟨s, t :: ts⟩ = ⟨t, ts⟩ := rfl

end Tokens

/-- How a run can end without a result. -/
inductive Failure (ε : Type) where
  | error (e : ε)
  | panic
  | outOfFuel
  deriving DecidableEq

abbrev Parser (τ ε α : Type) := StateT (Tokens τ) (Except (Failure ε)) α

def peek : Parser τ ε τ := fun ts => .ok (ts.current, ts)

/-- The token `n` places after the current one. -/
def lookahead (n : Nat) : Parser τ ε (Option τ) := fun ts => .ok (ts.toList[n]?, ts)

/-- Take the current token. -/
def advance : Parser τ ε τ := fun ts => .ok (ts.current, ts.advance)

def fail (e : ε) : Parser τ ε α := fun _ => .error (.error e)

def panic : Parser τ ε α := fun _ => .error .panic

/-- Fail unless `condition` holds. -/
def ensure (condition : Bool) (e : ε) : Parser τ ε Unit :=
  if condition then pure () else fail e

/-- Repeat `body` until it returns a result, at most `fuel` times. -/
def loop (body : σ → Parser τ ε (σ ⊕ ρ)) : Nat → σ → Parser τ ε ρ
  | 0, _ => fun _ => .error .outOfFuel
  | fuel + 1, s => body s >>= fun
      | .inl s => loop body fuel s
      | .inr r => pure r

/-- A loop in which every repetition takes a token, so the fuel cannot run out. -/
def iterate (body : σ → Parser τ ε (σ ⊕ ρ)) (s : σ) : Parser τ ε ρ :=
  fun ts => loop body (ts.rest.length + 1) s ts

/-- Run on `ts`, the parser returns `a` and leaves `us`. -/
def Yields (p : Parser τ ε α) (ts : Tokens τ) (a : α) (us : Tokens τ) : Prop :=
  p ts = .ok (a, us)

section

variable {p : Parser τ ε α} {f : α → Parser τ ε β} {ts us vs : Tokens τ} {a : α} {b : β}

/-- A run has one outcome. -/
theorem Yields.unique {a' : α} {us' : Tokens τ} (first : Yields p ts a us)
    (second : Yields p ts a' us') : a = a' ∧ us = us' := by
  have same := first.symm.trans second
  simpa using same

theorem Yields.bind (first : Yields p ts a us) (second : Yields (f a) us b vs) :
    Yields (p >>= f) ts b vs := by
  show (p ts >>= fun (a, us) => f a us) = .ok (b, vs)
  rw [show p ts = .ok (a, us) from first]
  exact second

/-- A sequence succeeds exactly if its parts do, one after the other. -/
theorem yields_bind : Yields (p >>= f) ts b vs ↔ ∃ a us, Yields p ts a us ∧
    Yields (f a) us b vs := by
  constructor
  · intro whole
    replace whole : (p ts >>= fun (a, us) => f a us) = .ok (b, vs) := whole
    cases first : p ts with
    | error e =>
        rw [first] at whole
        cases whole
    | ok result =>
        rw [first] at whole
        exact ⟨result.1, result.2, first, whole⟩
  · rintro ⟨a, us, first, second⟩
    exact first.bind second

/-- Once its first part is known, a sequence is its second part. -/
theorem Yields.bind_iff (first : Yields p ts a us) :
    Yields (p >>= f) ts b vs ↔ Yields (f a) us b vs := by
  rw [yields_bind]
  constructor
  · rintro ⟨a', us', first', second⟩
    obtain ⟨rfl, rfl⟩ := first.unique first'
    exact second
  · intro second
    exact ⟨a, us, first, second⟩

@[simp] theorem yields_pure {a' : α} : Yields (pure a : Parser τ ε α) ts a' us ↔
    a' = a ∧ us = ts := by
  show (Except.ok (a, ts) : Except (Failure ε) (α × Tokens τ)) = .ok (a', us) ↔ _
  simp [eq_comm]

theorem yields_map {g : α → β} :
    Yields (g <$> p) ts b us ↔ ∃ a, Yields p ts a us ∧ b = g a := by
  show Yields (p >>= fun a => pure (g a)) ts b us ↔ _
  rw [yields_bind]
  constructor
  · rintro ⟨a, us', first, rest⟩
    obtain ⟨rfl, rfl⟩ := yields_pure.mp rest
    exact ⟨a, first, rfl⟩
  · rintro ⟨a, first, rfl⟩
    exact ⟨a, us, first, yields_pure.mpr ⟨rfl, rfl⟩⟩

@[simp] theorem yields_peek {t : τ} : Yields (peek : Parser τ ε τ) ts t us ↔
    t = ts.current ∧ us = ts := by
  show (Except.ok (ts.current, ts) : Except (Failure ε) (τ × Tokens τ)) = .ok (t, us) ↔ _
  simp [eq_comm]

@[simp] theorem yields_advance {t : τ} :
    Yields (advance : Parser τ ε τ) ts t us ↔ t = ts.current ∧ us = ts.advance := by
  show (Except.ok (ts.current, ts.advance) : Except (Failure ε) (τ × Tokens τ)) = .ok (t, us) ↔ _
  simp [eq_comm]

@[simp] theorem yields_lookahead {n : Nat} {t : Option τ} :
    Yields (lookahead n : Parser τ ε (Option τ)) ts t us ↔ t = ts.toList[n]? ∧ us = ts := by
  show (Except.ok (ts.toList[n]?, ts) : Except (Failure ε) (Option τ × Tokens τ)) = .ok (t, us) ↔ _
  simp [eq_comm]

@[simp] theorem not_yields_fail {e : ε} : ¬ Yields (fail e : Parser τ ε α) ts a us := by
  intro h
  cases h

@[simp] theorem not_yields_panic : ¬ Yields (panic : Parser τ ε α) ts a us := by
  intro h
  cases h

theorem yields_ensure {condition : Bool} {e : ε} {u : Unit} :
    Yields (ensure condition e : Parser τ ε Unit) ts u us ↔ condition = true ∧ us = ts := by
  unfold ensure
  split
  · next holds => simp [holds]
  · next fails => simp [fails]

end

/-! ## Loops -/

section

variable {body : σ → Parser τ ε (σ ⊕ ρ)} {s : σ} {ts us : Tokens τ} {r : ρ}

/-- A run of the loop that repeats its body `n` times before the last one. -/
inductive Iterates (body : σ → Parser τ ε (σ ⊕ ρ)) :
    Nat → σ → Tokens τ → ρ → Tokens τ → Prop where
  | done {s : σ} {ts us : Tokens τ} {r : ρ} (last : Yields (body s) ts (.inr r) us) :
      Iterates body 0 s ts r us
  | step {n : Nat} {s s' : σ} {ts ts' us : Tokens τ} {r : ρ}
      (first : Yields (body s) ts (.inl s') ts') (later : Iterates body n s' ts' r us) :
      Iterates body (n + 1) s ts r us

theorem yields_loop {fuel : Nat} :
    Yields (loop body fuel s) ts r us ↔ ∃ n < fuel, Iterates body n s ts r us := by
  induction fuel generalizing s ts with
  | zero =>
      constructor
      · intro h
        cases h
      · rintro ⟨n, bound, _⟩
        exact absurd bound (Nat.not_lt_zero n)
  | succ fuel ih =>
      rw [loop, yields_bind]
      constructor
      · rintro ⟨s' | r', ts', first, later⟩
        · obtain ⟨n, bound, run⟩ := ih.mp later
          exact ⟨n + 1, Nat.succ_lt_succ bound, .step first run⟩
        · obtain ⟨rfl, rfl⟩ := yields_pure.mp later
          exact ⟨0, Nat.succ_pos fuel, .done first⟩
      · rintro ⟨_, bound, run⟩
        cases run with
        | done last => exact ⟨.inr r, us, last, yields_pure.mpr ⟨rfl, rfl⟩⟩
        | step first later =>
            exact ⟨.inl _, _, first, ih.mpr ⟨_, Nat.lt_of_succ_lt_succ bound, later⟩⟩

/-- A loop returns if it needs no more repetitions than there are tokens left. -/
theorem yields_iterate :
    Yields (iterate body s) ts r us ↔ ∃ n ≤ ts.rest.length, Iterates body n s ts r us := by
  show Yields (loop body (ts.rest.length + 1) s) ts r us ↔ _
  rw [yields_loop]
  simp only [Nat.lt_succ_iff]

/-- What the state keeps in every repetition, and the last one turns into a fact about
the result. -/
theorem Iterates.keeps {inv : σ → Prop} {post : ρ → Prop} {n : Nat}
    (run : Iterates body n s ts r us) (start : inv s)
    (step : ∀ s s' ts us, inv s → Yields (body s) ts (.inl s') us → inv s')
    (last : ∀ s r ts us, inv s → Yields (body s) ts (.inr r) us → post r) : post r := by
  induction run with
  | done final => exact last _ _ _ _ start final
  | step first _ ih => exact ih (step _ _ _ _ start first)

end

/-! ## Repetition -/

/-- One more item, if the current token starts one. -/
def manyStep (starts : τ → Bool) (item : Parser τ ε α) (items : List α) :
    Parser τ ε (List α ⊕ List α) := do
  let tok ← peek
  if starts tok then do
    let next ← item
    pure (.inl (items ++ [next]))
  else pure (.inr items)

/-- Items for as long as the current token starts one. -/
def many (starts : τ → Bool) (item : Parser τ ε α) : Parser τ ε (List α) :=
  iterate (manyStep starts item) []

section

variable {starts : τ → Bool} {item : Parser τ ε α} {ts us : Tokens τ} {xs : List α}

/-- The items lie one after the other, and none starts after the last. -/
inductive Many (starts : τ → Bool) (item : Parser τ ε α) :
    Tokens τ → List α → Tokens τ → Prop where
  | nil {ts : Tokens τ} (stop : starts ts.current = false) : Many starts item ts [] ts
  | cons {ts ts' us : Tokens τ} {x : α} {xs : List α} (start : starts ts.current = true)
      (first : Yields item ts x ts') (later : Many starts item ts' xs us) :
      Many starts item ts (x :: xs) us

theorem yields_manyStep {read : List α} {next : List α ⊕ List α} :
    Yields (manyStep starts item read) ts next us ↔
      (starts ts.current = true ∧ ∃ x, Yields item ts x us ∧ next = .inl (read ++ [x])) ∨
        (starts ts.current = false ∧ next = .inr read ∧ us = ts) := by
  rw [manyStep, Yields.bind_iff (yields_peek.mpr ⟨rfl, rfl⟩)]
  cases starts ts.current with
  | false => simp
  | true =>
      simp only [if_true, yields_bind, yields_pure, true_and]
      constructor
      · rintro ⟨x, us', first, rfl, rfl⟩
        exact .inl ⟨x, first, rfl⟩
      · rintro (⟨x, first, rfl⟩ | ⟨other, _⟩)
        · exact ⟨x, us, first, rfl, rfl⟩
        · cases other

theorem iterates_manyStep {n : Nat} {read all : List α} :
    Iterates (manyStep starts item) n read ts all us ↔
      ∃ xs, all = read ++ xs ∧ xs.length = n ∧ Many starts item ts xs us := by
  constructor
  · intro run
    induction run with
    | done last =>
        obtain ⟨_, _, _, other⟩ | ⟨stop, same, rfl⟩ := yields_manyStep.mp last
        · cases other
        · cases same
          exact ⟨[], (List.append_nil _).symm, rfl, .nil stop⟩
    | step turn _ ih =>
        obtain ⟨start, x, first, same⟩ | ⟨_, other, _⟩ := yields_manyStep.mp turn
        · cases same
          obtain ⟨xs, rfl, length, later⟩ := ih
          exact ⟨x :: xs, List.append_assoc _ _ _, congrArg (· + 1) length, .cons start first later⟩
        · cases other
  · rintro ⟨xs, rfl, rfl, items⟩
    induction items generalizing read with
    | nil stop => exact .done (yields_manyStep.mpr (.inr ⟨stop, by rw [List.append_nil], rfl⟩))
    | @cons ts ts' us x xs start first _ ih =>
        have later := @ih (read ++ [x])
        rw [List.append_assoc] at later
        exact .step (yields_manyStep.mpr (.inl ⟨start, x, first, rfl⟩)) later

theorem yields_many :
    Yields (many starts item) ts xs us ↔ Many starts item ts xs us ∧
      xs.length ≤ ts.rest.length := by
  rw [many, yields_iterate]
  constructor
  · rintro ⟨n, bound, run⟩
    obtain ⟨xs', rfl, rfl, items⟩ := iterates_manyStep.mp run
    exact ⟨items, bound⟩
  · rintro ⟨items, bound⟩
    exact ⟨xs.length, bound, iterates_manyStep.mpr ⟨xs, rfl, rfl, items⟩⟩

/-- Every item of a repetition was read. -/
theorem Many.forall {property : α → Prop} (items : Many starts item ts xs us)
    (each : ∀ x ts us, Yields item ts x us → property x) : ∀ x ∈ xs, property x := by
  induction items with
  | nil =>
      intro x member
      cases member
  | cons _ first _ ih => exact List.forall_mem_cons.mpr ⟨each _ _ _ first, ih⟩

theorem Many.starts_all {taken : List τ} (run : Many starts (advance : Parser τ ε τ) ts taken us) :
    ∀ t ∈ taken, starts t = true := by
  induction run with
  | nil =>
      intro t member
      cases member
  | cons start first _ ih =>
      obtain ⟨rfl, _⟩ := yields_advance.mp first
      exact List.forall_mem_cons.mpr ⟨start, ih⟩

/-- A repetition of `advance` takes the tokens before the first that stops it, if the
last one does. -/
theorem many_advance {taken before : List τ} {last : τ} (whole : ts.toList = before ++ [last])
    (stop : starts last = false) :
    Many starts (advance : Parser τ ε τ) ts taken us ↔
      ts.toList = taken ++ us.toList ∧ (∀ t ∈ taken, starts t = true) ∧
        starts us.current = false := by
  constructor
  · intro run
    induction run generalizing before with
    | nil stop => exact ⟨rfl, by simp, stop⟩
    | @cons ts ts' us t taken start first _ ih =>
        obtain ⟨rfl, rfl⟩ := yields_advance.mp first
        obtain ⟨current, rest⟩ := ts
        cases rest with
        | nil =>
            -- the last token would have stopped the repetition
            have same : current = last := by
              have ends := congrArg List.getLast? whole
              simpa [Tokens.toList] using ends
            rw [same, stop] at start
            cases start
        | cons next rest =>
            cases before with
            | nil => cases whole
            | cons _ before =>
                obtain ⟨split, all, finish⟩ := ih (List.cons.inj whole).2
                exact ⟨congrArg (current :: ·) split, by simpa using ⟨start, all⟩, finish⟩
  · rintro ⟨split, all, finish⟩
    induction taken generalizing ts before with
    | nil =>
        obtain ⟨current, rest⟩ := ts
        cases split
        exact .nil finish
    | cons t taken ih =>
        obtain ⟨current, rest⟩ := ts
        cases split
        cases before with
        | nil =>
            have none_left := congrArg List.length whole
            simp [Tokens.toList] at none_left
        | cons _ before =>
            refine .cons (all _ List.mem_cons_self) (yields_advance.mpr ⟨rfl, rfl⟩) ?_
            cases taken with
            | nil => exact ih (List.cons.inj whole).2 rfl (by simp)
            | cons next taken =>
                exact ih (List.cons.inj whole).2 rfl fun t member =>
                  all t (List.mem_cons_of_mem _ member)

end

end TokenParser
