import Mathlib.Tactic.Common

/-! # Computations that may fault

When a computation gives a result, all of its parts do. What a list of computations yields is what
they yield one after the other.
-/

namespace Categorial

variable {ε α β : Type}

theorem bind_eq_ok {x : Except ε α} {f : α → Except ε β} {b : β} :
    (x >>= f) = .ok b ↔ ∃ a, x = .ok a ∧ f a = .ok b := by
  cases x with
  | error e => exact ⟨nofun, fun ⟨_, h, _⟩ => nomatch h⟩
  | ok a => exact ⟨fun h => ⟨a, rfl, h⟩, fun ⟨_, h, hf⟩ => Except.ok.inj h ▸ hf⟩

theorem ok_of_bind {x : Except ε α} {f : α → Except ε β} {a : α} {b : β} (hx : x = .ok a)
    (h : x >>= f = .ok b) : f a = .ok b := by
  rw [hx] at h
  exact h

theorem map_eq_ok {x : Except ε α} {f : α → β} {b : β} :
    f <$> x = .ok b ↔ ∃ a, x = .ok a ∧ f a = b := by
  cases x with
  | error e => exact ⟨nofun, fun ⟨_, h, _⟩ => nomatch h⟩
  | ok a => exact ⟨fun h => ⟨a, rfl, Except.ok.inj h⟩, fun ⟨_, h, hf⟩ => Except.ok.inj h ▸ hf ▸ rfl⟩

theorem map_eq_error {x : Except ε α} {f : α → β} {e : ε} : f <$> x = .error e ↔ x = .error e := by
  cases x with
  | error e' =>
    exact ⟨fun h => congrArg _ (Except.error.inj h), fun h => congrArg _ (Except.error.inj h)⟩
  | ok a => exact ⟨nofun, nofun⟩

theorem map_congr_of_map {α' κ γ : Type} {f : α → κ} {f' : α' → κ} {g : α → γ} {g' : α' → γ}
    {x : Except ε α} {x' : Except ε α'} (hx : f <$> x = f' <$> x')
    (h : ∀ a a', x = .ok a → x' = .ok a' → f a = f' a' → g a = g' a') : g <$> x = g' <$> x' := by
  cases x with
  | error e =>
    obtain rfl := map_eq_error.mp hx.symm
    rfl
  | ok a =>
    obtain ⟨a', rfl, ha⟩ := map_eq_ok.mp hx.symm
    exact congrArg Except.ok (h a a' rfl rfl ha.symm)

theorem map_bind_congr {α' β' κ γ : Type} {f : α → Except ε β} {f' : α' → Except ε β'} {g : β → γ}
    {g' : β' → γ} (key : α → κ) (key' : α' → κ) {x : Except ε α} {x' : Except ε α'}
    (hx : key <$> x = key' <$> x') (h : ∀ a a', key a = key' a' → g <$> f a = g' <$> f' a') :
    g <$> (x >>= f) = g' <$> (x' >>= f') := by
  cases x with
  | error e =>
    obtain rfl := map_eq_error.mp hx.symm
    rfl
  | ok a =>
    obtain ⟨a', rfl, ha⟩ := map_eq_ok.mp hx.symm
    exact h a a' ha.symm

theorem bind_eq_error {x : Except ε α} {f : α → Except ε β} {e : ε} :
    (x >>= f) = .error e ↔ x = .error e ∨ ∃ a, x = .ok a ∧ f a = .error e := by
  cases x with
  | error e' =>
    refine ⟨fun h => .inl (congrArg _ (Except.error.inj h)), ?_⟩
    rintro (h | ⟨_, h, _⟩)
    · exact congrArg _ (Except.error.inj h)
    · exact nomatch h
  | ok a =>
    refine ⟨fun h => .inr ⟨a, rfl, h⟩, fun h => h.elim nofun fun ⟨b, hb, h⟩ => ?_⟩
    obtain rfl := Except.ok.inj hb
    exact h

theorem foldlM_cons_eq_ok {f : β → α → Except ε β} {x : α} {xs : List α} {b b' : β} :
    (x :: xs).foldlM f b = .ok b' ↔ ∃ c, f b x = .ok c ∧ xs.foldlM f c = .ok b' := by
  rw [List.foldlM_cons, bind_eq_ok]

theorem foldlM_eq_error {f : β → α → Except ε β} {xs : List α} {b : β} {e : ε} :
    xs.foldlM f b = .error e ↔ ∃ before x after c, xs = before ++ x :: after ∧
      before.foldlM f b = .ok c ∧ f c x = .error e := by
  induction xs generalizing b with
  | nil => exact ⟨nofun, fun ⟨_, _, _, _, h, _⟩ => absurd h (by simp)⟩
  | cons x xs ih =>
    rw [List.foldlM_cons, bind_eq_error]
    constructor
    · rintro (hx | ⟨d, hd, h⟩)
      · exact ⟨[], x, xs, b, rfl, rfl, hx⟩
      · obtain ⟨before, z, after, c, rfl, hc, hz⟩ := ih.mp h
        exact ⟨x :: before, z, after, c, rfl, foldlM_cons_eq_ok.mpr ⟨d, hd, hc⟩, hz⟩
    · rintro ⟨_ | ⟨y, before⟩, z, after, c, heq, hc, hz⟩
      · obtain ⟨rfl, -⟩ := List.cons.inj heq
        obtain rfl := Except.ok.inj hc
        exact .inl hz
      · obtain ⟨rfl, rfl⟩ := List.cons.inj heq
        obtain ⟨d, hd, hc⟩ := foldlM_cons_eq_ok.mp hc
        exact .inr ⟨d, hd, ih.mpr ⟨before, z, after, c, rfl, hc, hz⟩⟩

theorem mapM_eq_map {f : α → Except ε β} {g : α → β} {xs : List α} (h : ∀ x ∈ xs, f x = .ok (g x)) :
    xs.mapM f = .ok (xs.map g) := by
  induction xs with
  | nil => rfl
  | cons x xs ih =>
    rw [List.mapM_cons, h x (.head _), ih fun y hy => h y (.tail _ hy)]
    rfl

theorem foldlM_eq_foldl {f : β → α → Except ε β} {g : β → α → β} {xs : List α}
    (h : ∀ x ∈ xs, ∀ b, f b x = .ok (g b x)) (b : β) : xs.foldlM f b = .ok (xs.foldl g b) := by
  induction xs generalizing b with
  | nil => rfl
  | cons x xs ih =>
    exact foldlM_cons_eq_ok.mpr ⟨_, h x (.head _) b, ih (fun y hy => h y (.tail _ hy)) _⟩

theorem exists_mapM [Nonempty β] {f : α → Except ε β} {xs : List α} {Q : α → β → Prop}
    (h : ∀ x ∈ xs, ∃ y, f x = .ok y ∧ Q x y) :
    ∃ g, xs.mapM f = .ok (xs.map g) ∧ ∀ x ∈ xs, Q x (g x) := by
  choose! g hg using h
  exact ⟨g, mapM_eq_map fun x hx => (hg x hx).1, fun x hx => (hg x hx).2⟩

/-- A computation ends with a result of one kind or with an error of another. -/
def Ends (result : α → Prop) (error : ε → Prop) : Except ε α → Prop
  | .ok a => result a
  | .error e => error e

namespace Ends

variable {R R' : α → Prop} {E : ε → Prop} {x : Except ε α}

theorem of_ok (h : ∃ a, x = .ok a ∧ R a) : Ends R E x := by
  obtain ⟨a, rfl, ha⟩ := h
  exact ha

theorem exists_ok (h : Ends R (fun _ => False) x) : ∃ a, x = .ok a ∧ R a := by
  cases x with
  | error e => exact h.elim
  | ok a => exact ⟨a, rfl, h⟩

theorem self (h : ∀ e, x = .error e → E e) : Ends (x = .ok ·) E x := by
  cases x with
  | error e => exact h e rfl
  | ok a => exact rfl

theorem of_error (h : Ends R E x) {e : ε} (he : x = .error e) : E e := by
  subst he
  exact h

theorem of_eq_ok (h : Ends R E x) {a : α} (ha : x = .ok a) : R a := by
  subst ha
  exact h

theorem any (x : Except ε α) : Ends (fun _ => True) (fun _ => True) x := by
  cases x <;> trivial

theorem mono (h : Ends R E x) (hR : ∀ a, R a → R' a) : Ends R' E x := by
  cases x with
  | error e => exact h
  | ok a => exact hR a h

theorem bind {T : β → Prop} {f : α → Except ε β} (h : Ends R E x) (hf : ∀ a, R a → Ends T E (f a)) :
    Ends T E (x >>= f) := by
  cases x with
  | error e => exact h
  | ok a => exact hf a h

theorem map {T : β → Prop} {f : α → β} (h : Ends R E x) (hf : ∀ a, R a → T (f a)) :
    Ends T E (f <$> x) := by
  cases x with
  | error e => exact h
  | ok a => exact hf a h

theorem foldlM {I : β → Prop} {f : β → α → Except ε β} {xs : List α}
    (h : ∀ x ∈ xs, ∀ b, I b → Ends I E (f b x)) {b : β} (hb : I b) :
    Ends I E (xs.foldlM f b) := by
  induction xs generalizing b with
  | nil => exact hb
  | cons x xs ih =>
    rw [List.foldlM_cons]
    exact (h x (.head _) b hb).bind fun c hc => ih (fun y hy => h y (.tail _ hy)) hc

theorem mapM {T : β → Prop} {f : α → Except ε β} {xs : List α} (h : ∀ x ∈ xs, Ends T E (f x)) :
    Ends (fun ys => ∀ y ∈ ys, T y) E (xs.mapM f) := by
  induction xs with
  | nil => exact fun y hy => absurd hy List.not_mem_nil
  | cons x xs ih =>
    rw [List.mapM_cons]
    refine (h x (.head _)).bind fun y hy =>
      (ih fun z hz => h z (.tail _ hz)).bind fun ys hys => ?_
    exact List.forall_mem_cons.mpr ⟨hy, hys⟩

end Ends

/-- A computation that carries a state finds a result, and leaves the state in order. -/
def Finds {σ : Type} (I : σ → Prop) (b : β) (x : Except ε (β × σ)) : Prop :=
  ∃ s, x = .ok (b, s) ∧ I s

namespace Finds

variable {σ : Type} {I : σ → Prop}

theorem bind {b : β} {a : α} {x : Except ε (β × σ)} {f : β × σ → Except ε (α × σ)}
    (h : Finds I b x) (hf : ∀ s, I s → Finds I a (f (b, s))) : Finds I a (x >>= f) := by
  obtain ⟨s, rfl, hs⟩ := h
  exact hf s hs

/-- A loop finds what its turns find, one on top of the other. -/
theorem foldlM {f : β × σ → α → Except ε (β × σ)} {g : β → α → β} {xs : List α}
    (h : ∀ x ∈ xs, ∀ b s, I s → Finds I (g b x) (f (b, s) x)) {b : β} {s : σ} (hs : I s) :
    Finds I (xs.foldl g b) (xs.foldlM f (b, s)) := by
  induction xs generalizing b s with
  | nil => exact ⟨s, rfl, hs⟩
  | cons x xs ih =>
    rw [List.foldlM_cons]
    exact (h x (.head _) b s hs).bind fun t ht => ih (fun y hy => h y (.tail _ hy)) ht

end Finds

theorem exists_bind_ok {x : Except ε α} {f : α → Except ε β} (hx : ∃ a, x = .ok a)
    (hf : ∀ a, x = .ok a → ∃ b, f a = .ok b) : ∃ b, (x >>= f) = .ok b := by
  obtain ⟨a, rfl⟩ := hx
  exact hf a rfl

theorem exists_mapM_all {T : β → Prop} {f : α → Except ε β} {xs : List α}
    (h : ∀ x ∈ xs, ∃ y, f x = .ok y ∧ T y) : ∃ ys, xs.mapM f = .ok ys ∧ ∀ y ∈ ys, T y :=
  (Ends.mapM fun x hx => .of_ok (h x hx)).exists_ok

theorem exists_mapM_ok {f : α → Except ε β} {xs : List α} (h : ∀ x ∈ xs, ∃ y, f x = .ok y) :
    ∃ ys, xs.mapM f = .ok ys := by
  obtain ⟨ys, hys, _⟩ := exists_mapM_all (T := fun _ => True) fun x hx =>
    (h x hx).imp fun _ hy => ⟨hy, trivial⟩
  exact ⟨ys, hys⟩

/-- A loop goes through if each turn does, as long as something is kept. -/
theorem exists_foldlM_kept {I : β → Prop} {f : β → α → Except ε β} {xs : List α}
    (h : ∀ x ∈ xs, ∀ b, I b → ∃ b', f b x = .ok b' ∧ I b') {b : β} (hb : I b) :
    ∃ b', xs.foldlM f b = .ok b' ∧ I b' :=
  (Ends.foldlM (fun x hx b hb => .of_ok (h x hx b hb)) hb).exists_ok

theorem exists_foldlM_ok {f : β → α → Except ε β} {xs : List α}
    (h : ∀ x ∈ xs, ∀ b, ∃ b', f b x = .ok b') (b : β) : ∃ b', xs.foldlM f b = .ok b' := by
  obtain ⟨b', hb', _⟩ := exists_foldlM_kept (I := fun _ => True)
    (fun x hx b _ => (h x hx b).imp fun _ hb => ⟨hb, trivial⟩) (b := b) trivial
  exact ⟨b', hb'⟩

/-- All that a computation yields for the elements of a list. -/
def yieldAll (f : α → Except ε (List β)) : List α → Except ε (List β)
  | [] => .ok []
  | x :: xs => do
    let ys ← f x
    let rest ← yieldAll f xs
    .ok (ys ++ rest)

variable {f : α → Except ε (List β)} {x : α} {xs : List α} {ys : List β}

theorem yieldAll_cons_eq_ok : yieldAll f (x :: xs) = .ok ys ↔
    ∃ first rest, f x = .ok first ∧ yieldAll f xs = .ok rest ∧ ys = first ++ rest := by
  rw [yieldAll, bind_eq_ok]
  constructor
  · rintro ⟨first, hfirst, h⟩
    obtain ⟨rest, hrest, h⟩ := bind_eq_ok.mp h
    exact ⟨first, rest, hfirst, hrest, (Except.ok.inj h).symm⟩
  · rintro ⟨first, rest, hfirst, hrest, rfl⟩
    exact ⟨first, hfirst, bind_eq_ok.mpr ⟨rest, hrest, rfl⟩⟩

theorem yieldAll_map {γ : Type} (f : β → Except ε (List γ)) (g : α → β) (xs : List α) :
    yieldAll f (xs.map g) = yieldAll (fun x => f (g x)) xs := by
  induction xs with
  | nil => rfl
  | cons x xs ih => rw [List.map_cons, yieldAll, yieldAll, ih]

theorem exists_yieldAll_iff :
    (∃ ys, yieldAll f xs = .ok ys) ↔ ∀ x ∈ xs, ∃ ys, f x = .ok ys := by
  induction xs with
  | nil => simp [yieldAll]
  | cons x xs ih =>
    simp only [yieldAll_cons_eq_ok, List.mem_cons, forall_eq_or_imp, ← ih]
    constructor
    · rintro ⟨_, first, rest, hfirst, hrest, rfl⟩
      exact ⟨⟨first, hfirst⟩, rest, hrest⟩
    · rintro ⟨⟨first, hfirst⟩, rest, hrest⟩
      exact ⟨_, first, rest, hfirst, hrest, rfl⟩

theorem mem_yieldAll (h : yieldAll f xs = .ok ys) {y : β} :
    y ∈ ys ↔ ∃ x ∈ xs, ∃ zs, f x = .ok zs ∧ y ∈ zs := by
  induction xs generalizing ys with
  | nil =>
    obtain rfl := Except.ok.inj h
    simp
  | cons x xs ih =>
    obtain ⟨first, rest, hfirst, hrest, rfl⟩ := yieldAll_cons_eq_ok.mp h
    simp [ih hrest, hfirst]

theorem mem_yieldAll_iff {y : β} {P : α → Prop} (h : yieldAll f xs = .ok ys)
    (hP : ∀ x ∈ xs, ∀ zs, f x = .ok zs → (y ∈ zs ↔ P x)) : y ∈ ys ↔ ∃ x ∈ xs, P x := by
  rw [mem_yieldAll h]
  refine exists_congr fun x => and_congr_right fun hx => ?_
  obtain ⟨zs, hzs⟩ := exists_yieldAll_iff.mp ⟨_, h⟩ x hx
  rw [← hP x hx zs hzs]
  simp [hzs]

end Categorial
