/-!
Runs of machines that answer requests. Two machines whose states are related so that each request
gets the same answer from both give the same answers all along (`serve_simulates`). A request that
leaves the state alone makes no difference to the rest of a run (`serve_without`).

A machine may work on its state in place, one change after the other. When such an operation stops
halfway, the changes made so far stay made. An operation that gives a new state only if it succeeds
cannot leave anything behind. Where the two agree (`Realizes`), neither can the one in place.
-/

namespace TypesetKernel

variable {S T R A ε ε' α β : Type}

/-- The answers to some requests, asked one after the other, and the state at the end. -/
def serve (respond : S → R → A × S) (s : S) : List R → List A × S
  | [] => ([], s)
  | request :: rest =>
    let (answer, next) := respond s request
    let (answers, last) := serve respond next rest
    (answer :: answers, last)

theorem serve_append (respond : S → R → A × S) (s : S) (before later : List R) :
    serve respond s (before ++ later) =
      ((serve respond s before).1 ++ (serve respond (serve respond s before).2 later).1,
        (serve respond (serve respond s before).2 later).2) := by
  induction before generalizing s with
  | nil => rfl
  | cons request before ih => simp only [List.cons_append, serve, ih]

theorem serve_concat (respond : S → R → A × S) (s : S) (before : List R) (request : R) :
    serve respond s (before ++ [request]) =
      ((serve respond s before).1 ++ [(respond (serve respond s before).2 request).1],
        (respond (serve respond s before).2 request).2) := serve_append respond s before [request]

/-- Requests that leave the state alone can be left out: the others get the same answers without
them, and the run ends in the same state. -/
theorem serve_without {respond : S → R → A × S} {idle : A → Bool}
    (unchanged : ∀ s request, idle (respond s request).1 → (respond s request).2 = s) (s : S)
    (requests : List R) :
    let run := serve respond s requests
    let kept := (requests.zip run.1).filter fun step => !idle step.2
    serve respond s (kept.map Prod.fst) = (kept.map Prod.snd, run.2) := by
  induction requests generalizing s with
  | nil => rfl
  | cons request rest ih =>
    have onward := ih (respond s request).2
    by_cases idles : idle (respond s request).1
    · rw [unchanged s request idles] at onward
      simp only [serve, List.zip_cons_cons, List.filter_cons, idles, unchanged s request idles]
      exact onward
    · simp only [serve, List.zip_cons_cons, List.filter_cons, idles, List.map_cons, Bool.not_false,
        if_true]
      rw [onward]

theorem serve_simulates {respond : S → R → A × S} {respond' : T → R → A × T}
    {Related : S → T → Prop}
    (step : ∀ s t request, Related s t → (respond s request).1 = (respond' t request).1 ∧
      Related (respond s request).2 (respond' t request).2)
    {s : S} {t : T} (related : Related s t) (requests : List R) :
    (serve respond s requests).1 = (serve respond' t requests).1 ∧
      Related (serve respond s requests).2 (serve respond' t requests).2 := by
  induction requests generalizing s t with
  | nil => exact ⟨rfl, related⟩
  | cons request rest ih =>
    obtain ⟨same, next⟩ := step s t request related
    obtain ⟨answers, last⟩ := ih next
    exact ⟨congr (congrArg List.cons same) answers, last⟩

/-! ## Operations in place -/

/-- What an operation gives and the state that it leaves behind, whichever way it ends. -/
def settle (operation : EStateM ε S α) (s : S) : Except ε α × S :=
  match operation s with
  | .ok value next => (.ok value, next)
  | .error failure next => (.error failure, next)

/-- What becomes of a state under a function that gives a new one only if it succeeds. -/
def attempt (function : S → Except ε (α × S)) (s : S) : Except ε α × S :=
  match function s with
  | .ok (value, next) => (.ok value, next)
  | .error failure => (.error failure, s)

/-- Forgets the state that a failure leaves behind. -/
def conclude (ended : Except ε α × S) : Except ε (α × S) := ended.1.map (·, ended.2)

/-- The operation does in place what the function says: in particular, it changes nothing before it
is sure to succeed. -/
def Realizes (operation : EStateM ε S α) (function : S → Except ε (α × S)) : Prop :=
  ∀ s, settle operation s = attempt function s

/-- Works on a part of a state. What became of the part is put back also after a failure. -/
def onPart (part : S → T) (put : S → T → S) (rename : ε → ε') (operation : EStateM ε T α) :
    EStateM ε' S α := fun s =>
  match operation (part s) with
  | .ok value next => .ok value (put s next)
  | .error failure next => .error (rename failure) (put s next)

theorem attempt_of_ok {function : S → Except ε (α × S)} {s next : S} {value : α}
    (done : function s = .ok (value, next)) : attempt function s = (.ok value, next) := by
  rw [attempt, done]

theorem attempt_of_error {function : S → Except ε (α × S)} {s : S} {failure : ε}
    (failed : function s = .error failure) : attempt function s = (.error failure, s) := by
  rw [attempt, failed]

/-! ### Step by step -/

section Steps

variable (s : S)

@[simp] theorem settle_pure (value : α) :
    settle (pure value : EStateM ε S α) s = (.ok value, s) := rfl

@[simp] theorem settle_get : settle (get : EStateM ε S S) s = (.ok s, s) := rfl

@[simp] theorem settle_modify (change : S → S) :
    settle (modify change : EStateM ε S PUnit) s = (.ok (), change s) := rfl

@[simp] theorem settle_modifyGet (change : S → α × S) :
    settle (modifyGet change : EStateM ε S α) s = (.ok (change s).1, (change s).2) := rfl

@[simp] theorem settle_throw (failure : ε) :
    settle (throw failure : EStateM ε S α) s = (.error failure, s) := rfl

/-- The rest of an operation starts where the first part stands, unless that failed. -/
@[simp] theorem settle_bind (first : EStateM ε S α) (rest : α → EStateM ε S β) :
    settle (first >>= rest) s = match settle first s with
      | (.ok value, next) => settle (rest value) next
      | (.error failure, next) => (.error failure, next) := by
  simp only [settle, bind, EStateM.bind]
  cases first s <;> rfl

@[simp] theorem settle_map (f : α → β) (operation : EStateM ε S α) :
    settle (f <$> operation) s =
      ((settle operation s).1.map f, (settle operation s).2) := by
  simp only [settle, Functor.map, EStateM.map]
  cases operation s <;> rfl

@[simp] theorem settle_onPart (part : S → T) (put : S → T → S) (rename : ε → ε')
    (operation : EStateM ε T α) :
    settle (onPart part put rename operation) s =
      ((settle operation (part s)).1.mapError rename, put s (settle operation (part s)).2) := by
  simp only [settle, onPart]
  cases operation (part s) <;> rfl

end Steps

end TypesetKernel
