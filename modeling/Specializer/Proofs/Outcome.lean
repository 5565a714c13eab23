import Specializer.Outcome
import Mathlib.Data.List.Forall2

/-!
# What reads and updates guarantee

A read that succeeds succeeds at every step, and a list of reads gives one answer for each entry. A
failure is excused if it is a refusal or comes from a handle that nobody was given. An update is
judged by both of its ends: what holds of the answer and the state it leaves, and what holds of the
state it keeps when it is ended early.
-/

set_option autoImplicit false

namespace Specializer

theorem exists_mem_left_of_forall₂ {α β : Type} {R : α → β → Prop} {items : List α}
    {answers : List β} (h : List.Forall₂ R items answers) {b : β} (hMem : b ∈ answers) :
    ∃ a ∈ items, R a b := by
  induction h with
  | nil => cases hMem
  | cons hHead _ ih =>
    rcases List.mem_cons.mp hMem with rfl | hMem
    · exact ⟨_, List.mem_cons_self, hHead⟩
    · obtain ⟨a, ha, hRel⟩ := ih hMem
      exact ⟨a, List.mem_cons_of_mem _ ha, hRel⟩

theorem exists_mem_right_of_forall₂ {α β : Type} {R : α → β → Prop} {items : List α}
    {answers : List β} (h : List.Forall₂ R items answers) {a : α} (hMem : a ∈ items) :
    ∃ b ∈ answers, R a b :=
  exists_mem_left_of_forall₂ (R := fun b a => R a b) (List.Forall₂.flip h) hMem

theorem forall₂_join {α β γ : Type} {R : α → β → Prop} {S : β → γ → Prop} {T : α → γ → Prop}
    {items : List α} {middle : List β} {answers : List γ} (h : List.Forall₂ R items middle)
    (h' : List.Forall₂ S middle answers) (hJoin : ∀ a b c, R a b → S b c → T a c) :
    List.Forall₂ T items answers := by
  induction h generalizing answers with
  | nil =>
    cases h'
    exact .nil
  | cons hHead _ ih =>
    cases h' with
    | cons hHead' hRest => exact .cons (hJoin _ _ _ hHead hHead') (ih hRest)

theorem forall₂_unique {α β : Type} {R S : α → β → Prop} {items : List α} {left right : List β}
    (h : List.Forall₂ R items left) (h' : List.Forall₂ S items right)
    (hUnique : ∀ a ∈ items, ∀ b c, R a b → S a c → b = c) : left = right := by
  induction h generalizing right with
  | nil =>
    cases h'
    rfl
  | cons hHead _ ih =>
    cases h' with
    | cons hHead' hRest =>
      rw [hUnique _ List.mem_cons_self _ _ hHead hHead',
        ih hRest fun a ha => hUnique a (List.mem_cons_of_mem _ ha)]

theorem exists_getElem?_of_forall₂ {α β : Type} {R : α → β → Prop} {items : List α}
    {answers : List β} (h : List.Forall₂ R items answers) {index : Nat} {a : α}
    (ha : items[index]? = some a) : ∃ b, answers[index]? = some b ∧ R a b := by
  induction h generalizing index with
  | nil => simp at ha
  | cons hHead _ ih =>
    cases index with
    | zero =>
      cases ha
      exact ⟨_, rfl, hHead⟩
    | succ index => exact ih ha

theorem forall₂_modify {α β : Type} {R : α → β → Prop} {items : List α} {answers : List β}
    {f : α → α} {g : β → β} (h : List.Forall₂ R items answers)
    (hChange : ∀ a b, R a b → R (f a) (g b)) (index : Nat) :
    List.Forall₂ R (items.modify index f) (answers.modify index g) := by
  induction h generalizing index with
  | nil => simp
  | cons hHead hTail ih =>
    cases index with
    | zero => exact .cons (hChange _ _ hHead) hTail
    | succ index => exact .cons hHead (ih index)

namespace Read

variable {α β : Type}

theorem bind_eq_ok_iff {x : Read α} {f : α → Read β} {b : β} :
    x >>= f = .ok b ↔ ∃ a, x = .ok a ∧ f a = .ok b := by
  cases x with
  | error reason => simp [bind, Except.bind]
  | ok a => simp [bind, Except.bind]

theorem ok_bind (a : α) (f : α → Read β) : Except.ok a >>= f = f a := rfl

theorem pure_eq_ok_iff {a b : α} : (pure a : Read α) = .ok b ↔ a = b := by
  simp [pure, Except.pure]

theorem map_eq_ok_iff {f : α → β} {x : Read α} {b : β} :
    x.map f = .ok b ↔ ∃ a, x = .ok a ∧ f a = b := by
  cases x <;> simp [Except.map]

theorem map_eq_error_iff {f : α → β} {x : Read α} {reason : Fault} :
    x.map f = .error reason ↔ x = .error reason := by
  cases x <;> simp [Except.map]

theorem mapM_eq_ok_iff {f : α → Read β} {items : List α} {answers : List β} :
    items.mapM f = .ok answers ↔ List.Forall₂ (fun a b => f a = .ok b) items answers := by
  induction items generalizing answers with
  | nil => cases answers <;> simp [pure, Except.pure]
  | cons item rest ih =>
    simp only [List.mapM_cons, bind_eq_ok_iff, pure_eq_ok_iff, ih]
    constructor
    · rintro ⟨b, hItem, others, hRest, rfl⟩
      exact .cons hItem hRest
    · intro h
      cases h with
      | cons hItem hRest => exact ⟨_, hItem, _, hRest, rfl⟩

theorem exists_of_mapM_eq_error {f : α → Read β} {items : List α} {reason : Fault}
    (h : items.mapM f = .error reason) : ∃ item ∈ items, f item = .error reason := by
  induction items with
  | nil => cases h
  | cons item rest ih =>
    rw [List.mapM_cons] at h
    cases hItem : f item with
    | error other =>
      rw [hItem] at h
      cases h
      exact ⟨item, List.mem_cons_self, hItem⟩
    | ok b =>
      rw [hItem, ok_bind] at h
      cases hRest : rest.mapM f with
      | error other =>
        rw [hRest] at h
        cases h
        obtain ⟨last, hLast, hFault⟩ := ih hRest
        exact ⟨last, List.mem_cons_of_mem _ hLast, hFault⟩
      | ok others =>
        rw [hRest] at h
        cases h

theorem exists_bind_eq_ok {x : Read α} {f : α → Read β} (hx : ∃ a, x = .ok a)
    (hf : ∀ a, x = .ok a → ∃ b, f a = .ok b) : ∃ b, x >>= f = .ok b := by
  obtain ⟨a, ha⟩ := hx
  obtain ⟨b, hb⟩ := hf a ha
  exact ⟨b, bind_eq_ok_iff.mpr ⟨a, ha, hb⟩⟩

theorem exists_mapM_eq_ok {f : α → Read β} {items : List α}
    (h : ∀ item ∈ items, ∃ b, f item = .ok b) : ∃ answers, items.mapM f = .ok answers := by
  induction items with
  | nil => exact ⟨[], rfl⟩
  | cons item rest ih =>
    obtain ⟨b, hItem⟩ := h item List.mem_cons_self
    obtain ⟨others, hRest⟩ := ih fun other hOther => h other (List.mem_cons_of_mem _ hOther)
    exact ⟨b :: others, mapM_eq_ok_iff.mpr (.cons hItem (mapM_eq_ok_iff.mp hRest))⟩

theorem bind_mono {x x' : Read α} {f f' : α → Read β} {b : β} (hx : ∀ a, x = .ok a → x' = .ok a)
    (hf : ∀ a b, f a = .ok b → f' a = .ok b) (h : x >>= f = .ok b) : x' >>= f' = .ok b := by
  obtain ⟨a, ha, hb⟩ := bind_eq_ok_iff.mp h
  exact bind_eq_ok_iff.mpr ⟨a, hx a ha, hf a b hb⟩

theorem mapM_mono {f f' : α → Read β} {items : List α} {answers : List β}
    (hf : ∀ a b, f a = .ok b → f' a = .ok b) (h : items.mapM f = .ok answers) :
    items.mapM f' = .ok answers :=
  mapM_eq_ok_iff.mpr ((mapM_eq_ok_iff.mp h).imp hf)

end Read

/-- The failure is a refusal, or a handle that nobody was given; the latter not under `clean`. -/
def Failure.Excused {ε : Type} (clean : Prop) : Failure ε → Prop
  | .refused _ => True
  | .fault reason => reason = .unminted ∧ ¬clean

/-- The read can fail only at a handle that nobody was given, and under `clean` not at all. -/
def Read.Excused {α : Type} (clean : Prop) (x : Read α) : Prop :=
  ∀ reason, x = .error reason → reason = .unminted ∧ ¬clean

theorem Failure.Excused.mono {ε : Type} {e : Failure ε} {clean clean' : Prop}
    (h : e.Excused clean) (hImp : clean' → clean) : e.Excused clean' := by
  cases e with
  | refused cause => exact trivial
  | fault reason => exact ⟨h.1, fun hClean => h.2 (hImp hClean)⟩

namespace Read.Excused

variable {α β : Type} {clean : Prop} {x : Read α}

theorem of_exists (h : ∃ a, x = .ok a) : x.Excused clean := by
  intro reason hReason
  obtain ⟨a, ha⟩ := h
  cases ha.symm.trans hReason

theorem of_cases (h : x.Excused False) (hClean : clean → ∃ a, x = .ok a) : x.Excused clean := by
  intro reason hReason
  constructor
  · exact (h reason hReason).1
  · intro hNow
    obtain ⟨a, ha⟩ := hClean hNow
    cases ha.symm.trans hReason

theorem mono {clean' : Prop} (h : x.Excused clean) (hImp : clean' → clean) : x.Excused clean' := by
  intro reason hReason
  obtain ⟨hUnminted, hNot⟩ := h reason hReason
  exact ⟨hUnminted, fun hClean => hNot (hImp hClean)⟩

theorem pure (a : α) : (pure a : Read α).Excused clean := .of_exists ⟨a, rfl⟩

theorem bind {f : α → Read β} (hx : x.Excused clean)
    (hf : ∀ a, x = .ok a → (f a).Excused clean) : (x >>= f).Excused clean := by
  intro reason hReason
  cases hRead : x with
  | ok a =>
    rw [hRead] at hReason
    exact hf a hRead reason hReason
  | error other =>
    rw [hRead] at hReason
    cases hReason
    exact hx reason hRead

theorem mapM {f : α → Read β} {items : List α} (h : ∀ item ∈ items, (f item).Excused clean) :
    (items.mapM f).Excused clean := by
  intro reason hReason
  obtain ⟨item, hItem, hFault⟩ := Read.exists_of_mapM_eq_error hReason
  exact h item hItem reason hFault

theorem ofCause {ε : Type} {cause : Read ε} (h : cause.Excused clean) :
    (Failure.ofCause cause).Excused clean := by
  cases cause with
  | ok cause => exact trivial
  | error reason => exact h reason rfl

end Read.Excused

namespace Update

variable {σ τ ε δ α β : Type}

theorem bind_eq_ok_iff {u : Update σ ε α} {f : α → Update σ ε β} {s t : σ} {b : β} :
    (u >>= f) s = .ok b t ↔ ∃ a r, u s = .ok a r ∧ f a r = .ok b t := by
  cases h : u s <;> simp [Bind.bind, EStateM.bind, h]

def lastState : EStateM.Result (Failure ε) σ α → σ
  | .ok _ t => t
  | .error _ t => t

def leave (update : Update σ ε α) (s : σ) : σ := lastState (update s)

theorem leave_of_ok {update : Update σ ε α} {s t : σ} {a : α} (h : update s = .ok a t) :
    update.leave s = t :=
  congrArg lastState h

theorem leave_of_error {update : Update σ ε α} {s t : σ} {e : Failure ε}
    (h : update s = .error e t) : update.leave s = t :=
  congrArg lastState h

theorem bind_of_ok {u : Update σ ε α} {f : α → Update σ ε β} {s t : σ} {a : α}
    (h : u s = .ok a t) : (u >>= f) s = f a t := by
  simp [Bind.bind, EStateM.bind, h]

theorem bind_of_error {u : Update σ ε α} {f : α → Update σ ε β} {s t : σ} {e : Failure ε}
    (h : u s = .error e t) : (u >>= f) s = .error e t := by
  simp [Bind.bind, EStateM.bind, h]

theorem leave_congr {u v : Update σ ε α} {s : σ} (h : u s = v s) : u.leave s = v.leave s := by
  rw [leave, h, leave]

theorem leave_bind_of_ok {u : Update σ ε α} {f : α → Update σ ε β} {s t : σ} {a : α}
    (h : u s = .ok a t) : (u >>= f).leave s = (f a).leave t := by
  rw [leave, bind_of_ok h, leave]

theorem leave_bind_of_error {u : Update σ ε α} {f : α → Update σ ε β} {s t : σ}
    {e : Failure ε} (h : u s = .error e t) : (u >>= f).leave s = u.leave s := by
  rw [leave_of_error (bind_of_error h), leave_of_error h]

theorem outcome_of_ok {update : Update σ ε α} {s t : σ} {a : α} (h : update s = .ok a t) :
    update.outcome s = .ok (.ok a, t) := by
  rw [outcome, h]

theorem outcome_of_refused {update : Update σ ε α} {s t : σ} {cause : ε}
    (h : update s = .error (.refused cause) t) : update.outcome s = .ok (.error cause, t) := by
  rw [outcome, h]

def succeeds (update : Update σ ε α) (s : σ) : Bool :=
  match update s with
  | .ok _ _ => true
  | .error _ _ => false

theorem exists_of_succeeds {update : Update σ ε α} {s : σ} (h : update.succeeds s = true) :
    ∃ a t, update s = .ok a t := by
  unfold succeeds at h
  cases hRun : update s with
  | ok a t => exact ⟨a, t, rfl⟩
  | error e t => simp [hRun] at h

theorem exists_of_not_succeeds {update : Update σ ε α} {s : σ} (h : update.succeeds s = false) :
    ∃ e t, update s = .error e t := by
  unfold succeeds at h
  cases hRun : update s with
  | ok a t => simp [hRun] at h
  | error e t => exact ⟨e, t, rfl⟩

/-- From `s` the update ends with `post` of its answer and state, or with `fail` of its failure and
of the state it had come to. -/
def Ensures (update : Update σ ε α) (s : σ) (post : α → σ → Prop) (fail : Failure ε → σ → Prop) :
    Prop :=
  match update s with
  | .ok a t => post a t
  | .error e t => fail e t

namespace Ensures

variable {update : Update σ ε α} {s : σ} {Q Q' : α → σ → Prop}
  {F F' : Failure ε → σ → Prop}

theorem of_ok (h : update.Ensures s Q F) {a : α} {t : σ} (hRun : update s = .ok a t) :
    Q a t := by
  rwa [Ensures, hRun] at h

theorem of_error (h : update.Ensures s Q F) {e : Failure ε} {t : σ}
    (hRun : update s = .error e t) : F e t := by
  rwa [Ensures, hRun] at h

theorem exists_ok (h : update.Ensures s Q fun _ _ => False) :
    ∃ a t, update s = .ok a t ∧ Q a t := by
  cases hRun : update s with
  | ok a t => exact ⟨a, t, rfl, h.of_ok hRun⟩
  | error e t => exact (h.of_error hRun).elim

theorem leave {I : σ → Prop} (h : update.Ensures s (fun _ t => I t) (fun _ t => I t)) :
    I (update.leave s) := by
  cases hRun : update s with
  | ok a t =>
    rw [leave_of_ok hRun]
    exact h.of_ok hRun
  | error e t =>
    rw [leave_of_error hRun]
    exact h.of_error hRun

theorem mono (h : update.Ensures s Q F) (hPost : ∀ a t, Q a t → Q' a t)
    (hFail : ∀ e t, F e t → F' e t) : update.Ensures s Q' F' := by
  unfold Ensures at h ⊢
  split
  case h_1 a t hRun => exact hPost a t (by rwa [hRun] at h)
  case h_2 e t hRun => exact hFail e t (by rwa [hRun] at h)

theorem congr {update' : Update σ ε α} (hSame : update s = update' s)
    (h : update'.Ensures s Q F) : update.Ensures s Q F := by
  rwa [Ensures, hSame]

/-- What an update guarantees under an assumption, as a guarantee without it. -/
theorem under {P : Prop} (h : P → update.Ensures s Q F) :
    update.Ensures s (fun a t => P → Q a t) (fun e t => P → F e t) := by
  unfold Ensures
  split
  case h_1 a t hRun => exact fun hP => (h hP).of_ok hRun
  case h_2 e t hRun => exact fun hP => (h hP).of_error hRun

theorem and (h : update.Ensures s Q F) (h' : update.Ensures s Q' F') :
    update.Ensures s (fun a t => Q a t ∧ Q' a t) (fun e t => F e t ∧ F' e t) := by
  unfold Ensures at h h' ⊢
  split
  case h_1 a t hRun =>
    rw [hRun] at h h'
    exact ⟨h, h'⟩
  case h_2 e t hRun =>
    rw [hRun] at h h'
    exact ⟨h, h'⟩

theorem bind {f : α → Update σ ε β} {R : β → σ → Prop} (h : update.Ensures s Q F)
    (hNext : ∀ a t, Q a t → (f a).Ensures t R F')
    (hFail : ∀ e t, F e t → F' e t) : (update >>= f).Ensures s R F' := by
  unfold Ensures at h ⊢
  cases hRun : update s with
  | ok a t =>
    rw [hRun] at h
    simp only [Bind.bind, EStateM.bind, hRun]
    exact hNext a t h
  | error e t =>
    rw [hRun] at h
    simp only [Bind.bind, EStateM.bind, hRun]
    exact hFail e t h

theorem read {x : Read α} (hOk : ∀ a, x = .ok a → Q a s)
    (hError : ∀ reason, x = .error reason → F (.fault reason) s) :
    (liftM x : Update σ ε α).Ensures s Q F := by
  cases x with
  | ok a => exact hOk a rfl
  | error reason => exact hError reason rfl

theorem bindRead {x : Read α} {f : α → Update σ ε β} {Q : β → σ → Prop}
    (hOk : ∀ a, x = .ok a → (f a).Ensures s Q F)
    (hError : ∀ reason, x = .error reason → F (.fault reason) s) :
    ((liftM x : Update σ ε α) >>= f).Ensures s Q F := by
  cases x with
  | ok a => exact hOk a rfl
  | error reason => exact hError reason rfl

theorem bindReadOk {x : Read α} {a : α} {f : α → Update σ ε β} {Q : β → σ → Prop} (hOk : x = .ok a)
    (h : (f a).Ensures s Q F) : ((liftM x : Update σ ε α) >>= f).Ensures s Q F := by
  subst hOk
  exact h

theorem bindGet {f : σ → Update σ ε β} {Q : β → σ → Prop} (h : (f s).Ensures s Q F) :
    ((get : Update σ ε σ) >>= f).Ensures s Q F := h

theorem bindModify {change : σ → σ} {f : PUnit → Update σ ε β} {Q : β → σ → Prop}
    (h : (f ⟨⟩).Ensures (change s) Q F) :
    ((modify change : Update σ ε PUnit) >>= f).Ensures s Q F := h

theorem modify {change : σ → σ} {Q : PUnit → σ → Prop} (h : Q ⟨⟩ (change s)) :
    (modify change : Update σ ε PUnit).Ensures s Q F := h

theorem throw {e : Failure ε} (h : F e s) : (throw e : Update σ ε α).Ensures s Q F := h

theorem refuse {cause : ε} (h : F (.refused cause) s) :
    (refuse cause : Update σ ε α).Ensures s Q F := h

theorem check {x : Except ε α} (hOk : ∀ a, x = .ok a → Q a s)
    (hError : ∀ cause, x = .error cause → F (.refused cause) s) :
    (ofCheck x : Update σ ε α).Ensures s Q F := by
  cases x with
  | ok a => exact hOk a rfl
  | error cause => exact hError cause rfl

/-- An update of one component keeps the rest of the state. -/
theorem focus {part : σ → τ} {put : τ → σ → σ} {cause : δ → Read ε} {update : Update τ δ α}
    {Q : α → τ → Prop} {F : Failure δ → τ → Prop} {Q' : α → σ → Prop}
    {F' : Failure ε → σ → Prop} (h : update.Ensures (part s) Q F)
    (hPost : ∀ a t, Q a t → Q' a (put t s))
    (hRefused : ∀ d t, F (.refused d) t → F' (.ofCause (cause d)) (put t s))
    (hFault : ∀ reason t, F (.fault reason) t → F' (.fault reason) (put t s)) :
    (focus part put cause update).Ensures s Q' F' := by
  unfold Ensures at h
  unfold Ensures Update.focus
  cases hRun : update (part s) with
  | ok a t =>
    rw [hRun] at h
    exact hPost a t h
  | error e t =>
    rw [hRun] at h
    cases e with
    | refused d => exact hRefused d t h
    | fault reason => exact hFault reason t h

/-- Updates for the entries of a list, one after the other. `I` holds between them, and what one of
them has established about its entry outlives the changes `L` that the later ones make. -/
theorem mapM {f : α → Update σ ε β} {items : List α} {I : σ → Prop} {L : σ → σ → Prop}
    {R : σ → α → β → Prop} (hRefl : ∀ s, L s s) (hTrans : ∀ s t u, L s t → L t u → L s u)
    (hStable : ∀ s t a b, L s t → R s a b → R t a b)
    (hStep : ∀ a ∈ items, ∀ s, I s → (f a).Ensures s (fun b t => I t ∧ L s t ∧ R t a b) F)
    (hInv : I s) :
    (items.mapM f).Ensures s (fun bs t => I t ∧ L s t ∧ List.Forall₂ (R t) items bs) F := by
  induction items generalizing s with
  | nil => exact ⟨hInv, hRefl s, .nil⟩
  | cons item rest ih =>
    rw [List.mapM_cons]
    refine (hStep item List.mem_cons_self s hInv).bind ?_ fun _ _ h => h
    rintro b t ⟨hInvT, hLe, hRel⟩
    refine (ih (fun a ha => hStep a (List.mem_cons_of_mem _ ha)) hInvT).bind ?_ fun _ _ h => h
    rintro others u ⟨hInvU, hLe', hRest⟩
    exact ⟨hInvU, hTrans s t u hLe hLe', .cons (hStable t u item b hLe' hRel) hRest⟩

theorem foldlM {f : β → α → Update σ ε β} {items : List α} {I : List α → β → σ → Prop} {acc : β}
    (hStep : ∀ done a rest, items = done ++ a :: rest → ∀ acc s, I done acc s →
      (f acc a).Ensures s (I (done ++ [a])) F)
    (hInv : I [] acc s) : (items.foldlM f acc).Ensures s (I items) F := by
  suffices h : ∀ done rest acc s, items = done ++ rest → I done acc s →
      (rest.foldlM f acc).Ensures s (I items) F from h [] items acc s rfl hInv
  intro done rest
  induction rest generalizing done with
  | nil =>
    intro acc s hItems hInv
    rw [List.append_nil] at hItems
    subst hItems
    exact hInv
  | cons a rest ih =>
    intro acc s hItems hInv
    rw [List.foldlM_cons]
    refine (hStep done a rest hItems acc s hInv).bind ?_ fun _ _ h => h
    intro acc' t hInv'
    exact ih (done ++ [a]) acc' t (by simp [hItems]) hInv'

theorem forM {f : α → Update σ ε PUnit} {items : List α} {I : List α → σ → Prop}
    (hStep : ∀ done a rest, items = done ++ a :: rest → ∀ s, I done s →
      (f a).Ensures s (fun _ => I (done ++ [a])) F)
    (hInv : I [] s) : (items.forM f).Ensures s (fun _ => I items) F := by
  suffices h : ∀ done rest s, items = done ++ rest → I done s →
      (rest.forM f).Ensures s (fun _ => I items) F from h [] items s rfl hInv
  intro done rest
  induction rest generalizing done with
  | nil =>
    intro s hItems hInv
    rw [List.append_nil] at hItems
    subst hItems
    exact hInv
  | cons a rest ih =>
    intro s hItems hInv
    refine (hStep done a rest hItems s hInv).bind ?_ fun _ _ h => h
    intro _ t hInv'
    exact ih (done ++ [a]) t (by simp [hItems]) hInv'

end Ensures

end Update

end Specializer
