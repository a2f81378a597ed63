import ShellGrammar.Proofs.Reader.Calls
import ShellGrammar.Proofs.Reader.Record

/-! The calls that take tokens.

`Records` says which tokens a production takes. `Takings` says it together with the calls under
way when a token is taken, from the outermost inward, and with where each of them begins and
ends. A token is taken by the production itself or in a call that it makes, and which questions
and calls these can be the table tells (`takings_cases`). -/
namespace ShellGrammar
open Grammar ParseM

/-- A call of a production: its context, and the places where it begins and ends. -/
structure Call where
  context : Context
  production : Production
  start : Scan
  stop : Scan

/-- A token that is taken, and the calls under way when it is, from the outermost inward. -/
structure Taking where
  calls : List Call
  taken : Taken

/-- The same within one more call. -/
def Taking.under (call : Call) (x : Taking) : Taking := ⟨call :: x.calls, x.taken⟩

@[simp] theorem Taking.calls_under (call : Call) (x : Taking) :
    (x.under call).calls = call :: x.calls := rfl

@[simp] theorem Taking.taken_under (call : Call) (x : Taking) :
    (x.under call).taken = x.taken := rfl

/-- What a reader takes itself is taken in no call. -/
instance : Log Taking := ⟨fun c _ _ ts => ts.map fun t => ⟨[], ⟨c, t⟩⟩⟩

/-- What productions yield and take, and in which calls, when calls go at most so deep. -/
def takings : Nat → Logging Taking
  | 0 => fun _ _ _ _ _ _ => False
  | n + 1 => fun c p place ns xs place' =>
    ∃ ys, p.body.RecordsBy (takings n) c place ns ys place' ∧
      xs = ys.map (.under ⟨c, p, place, place'⟩)

/-- At some depth, a production yields some nodes and takes some tokens from one place to
another. -/
def Takings (c : Context) (p : Production) (place : Scan) (ns : List Node) (xs : List Taking)
    (place' : Scan) : Prop :=
  ∃ n, takings n c p place ns xs place'

section Takings
variable {c : Context} {p : Production} {place place' : Scan} {ns : List Node} {n : Nat}

/-! ### What is on record -/

theorem Reader.RecordsBy.takings {below : Recording} {below' : Logging Taking} {α : Type}
    {m : Reader α} {a : α} {xs : List Taken} (h : m.RecordsBy below c place a xs place')
    (hbelow : ∀ c p place ns xs place', below c p place ns xs place' →
      ∃ ys, below' c p place ns ys place' ∧ ys.map Taking.taken = xs) :
    ∃ ys, m.RecordsBy below' c place a ys place' ∧ ys.map Taking.taken = xs := by
  induction m generalizing place xs with
  | done b =>
    obtain ⟨rfl, rfl, rfl⟩ := h
    exact ⟨[], ⟨rfl, rfl, rfl⟩, rfl⟩
  | stop => exact h.elim
  | ask q k ih =>
    obtain ⟨b, ts, place₁, ws, hgives, hrest, rfl⟩ := h
    obtain ⟨ys, hys, rfl⟩ := ih b hrest
    refine ⟨_, ⟨b, ts, place₁, ys, hgives, hys, rfl⟩, ?_⟩
    rw [List.map_append]
    congr 1
    exact List.map_map ..
  | call shift p k ih =>
    obtain ⟨ns, us, place₁, ws, hcall, hrest, rfl⟩ := h
    obtain ⟨vs, hvs, rfl⟩ := hbelow _ _ _ _ _ _ hcall
    obtain ⟨ys, hys, rfl⟩ := ih ns hrest
    exact ⟨_, ⟨ns, vs, place₁, ys, hvs, hys, rfl⟩, List.map_append⟩

/-- Whatever is on record is taken in some calls. -/
theorem Records.takings {xs : List Taken} (h : Records c p place ns xs place') :
    ∃ ys, Takings c p place ns ys place' ∧ ys.map Taking.taken = xs := by
  obtain ⟨n, h⟩ := h
  suffices h : ∃ ys, ShellGrammar.takings n c p place ns ys place' ∧ ys.map Taking.taken = xs by
    obtain ⟨ys, hys, heq⟩ := h
    exact ⟨ys, ⟨n, hys⟩, heq⟩
  induction n generalizing c p place ns xs place' with
  | zero => exact h.elim
  | succ n ih =>
    obtain ⟨ys, hys, rfl⟩ := Reader.RecordsBy.takings h fun _ _ _ _ _ _ => ih
    exact ⟨_, ⟨ys, hys, rfl⟩, List.map_map ..⟩

/-! ### Who takes a token -/

/-- A token is the answer to a question of a production. -/
def Production.Takes (p : Production) (c : Context) (t : Token) : Prop :=
  ∃ (β : Type) (q : Query β) (b : β) (ts : List Token) (place place' : Scan),
    p.Asks β q ∧ q.Gives c place b ts place' ∧ t ∈ ts

/-- A reader takes a token itself, or a production does that it calls. -/
theorem Reader.RecordsBy.taking_cases {below : Logging Taking} {Q : (β : Type) → Query β → Prop}
    {C : Shift → Production → Prop} {α : Type} {m : Reader α} {a : α} {xs : List Taking}
    (h : m.RecordsBy below c place a xs place') (hm : m.Within Q C) {x : Taking} (hx : x ∈ xs) :
    (x.calls = [] ∧ x.taken.context = c ∧ ∃ (β : Type) (q : Query β) (b : β) (ts : List Token)
      (place place' : Scan), Q β q ∧ q.Gives c place b ts place' ∧ x.taken.token ∈ ts) ∨
    ∃ shift p start ns ys stop, C shift p ∧ below (c.shift shift) p start ns ys stop ∧ x ∈ ys ∧
      ys ⊆ xs := by
  induction m generalizing place xs with
  | done b =>
    obtain ⟨-, rfl, -⟩ := h
    exact absurd hx List.not_mem_nil
  | stop => exact h.elim
  | ask q k ih =>
    obtain ⟨b, ts, place₁, ys, hgives, hrest, rfl⟩ := h
    rcases List.mem_append.mp hx with hnow | hlater
    · obtain ⟨t, ht, rfl⟩ := List.mem_map.mp hnow
      exact .inl ⟨rfl, rfl, _, q, b, ts, place, place₁, hm.1, hgives, ht⟩
    · refine (ih b hrest (hm.2 b) hlater).imp_right ?_
      rintro ⟨shift, p, start, ns, zs, stop, hp, hcall, hx, hsub⟩
      exact ⟨shift, p, start, ns, zs, stop, hp, hcall, hx, fun _ hz =>
        List.mem_append_right _ (hsub hz)⟩
  | call shift p k ih =>
    obtain ⟨ns, ws, place₁, ys, hcall, hrest, rfl⟩ := h
    rcases List.mem_append.mp hx with hnow | hlater
    · exact .inr ⟨shift, p, place, ns, ws, place₁, hm.1, hcall, hnow, List.subset_append_left _ _⟩
    · refine (ih ns hrest (hm.2 ns) hlater).imp_right ?_
      rintro ⟨shift, p, start, ns, zs, stop, hp, hcall, hx, hsub⟩
      exact ⟨shift, p, start, ns, zs, stop, hp, hcall, hx, fun _ hz =>
        List.mem_append_right _ (hsub hz)⟩

/-- A token is taken by the production itself, or in a call that it makes. -/
theorem takings_cases {xs : List Taking} (h : takings (n + 1) c p place ns xs place') {x : Taking}
    (hx : x ∈ xs) :
    ∃ y : Taking, x = y.under ⟨c, p, place, place'⟩ ∧
      ((y.calls = [] ∧ y.taken.context = c ∧ p.Takes c y.taken.token) ∨
        ∃ shift p' start ns' ys stop, p.Calls shift p' ∧
          takings n (c.shift shift) p' start ns' ys stop ∧ y ∈ ys ∧
          ∀ z ∈ ys, z.under ⟨c, p, place, place'⟩ ∈ xs) := by
  obtain ⟨ys, hbody, rfl⟩ := h
  obtain ⟨y, hy, rfl⟩ := List.mem_map.mp hx
  refine ⟨y, rfl, (hbody.taking_cases (covers_body p) hy).imp_right ?_⟩
  rintro ⟨shift, p', start, ns', zs, stop, hcalls, hcall, hy, hsub⟩
  exact ⟨shift, p', start, ns', zs, stop, hcalls, hcall, hy, fun z hz =>
    List.mem_map_of_mem (hsub hz)⟩

/-- The outermost call is that of the production. -/
theorem takings_outermost {xs : List Taking} (h : takings n c p place ns xs place') {x : Taking}
    (hx : x ∈ xs) : ∃ inner, x.calls = ⟨c, p, place, place'⟩ :: inner := by
  cases n with
  | zero => exact h.elim
  | succ n =>
    obtain ⟨y, rfl, -⟩ := takings_cases h hx
    exact ⟨y.calls, rfl⟩

end Takings

end ShellGrammar
