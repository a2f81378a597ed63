import ShellGrammar.Proofs.Reader.Stems

/-! Where the simple commands of a text are.

Each simple command in a tree was made by a call of `command`, and in pre-order each of these calls
starts further on in the tokens than the one before it (`Records.spotted`). So simple commands that
look alike are told apart by where they are. -/
namespace ShellGrammar
open Grammar ParseM Reader

/-! ### Calls of `command` -/

/-- Whether a production is a list of commands or stands in one around the commands. -/
def Production.isListPart : Production → Bool
  | list _ | entries _ | entry | pipeline | command => true
  | chain ch | chainRest ch _ => ch.isCommand
  | _ => false

/-- The parts of a list are called by its parts, as things are, or with the list as a whole. -/
theorem Production.Calls.isListPart {p p' : Production} {shift : Shift} (h : p.Calls shift p')
    (hp : p.Sane) (hp' : p'.isListPart = true) :
    (p.isListPart = true ∧ shift = .here) ∨ ∃ closer, shift = .inside closer := by
  cases h with
  | list adjacent closer => exact .inr ⟨closer, rfl⟩
  | listInArith => exact .inr ⟨.paren, rfl⟩
  | one =>
    cases p' with
    | assign | word | piece => cases hp'
    | _ => cases hp
  | first ch => cases ch <;> first | exact .inl ⟨rfl, rfl⟩ | cases hp'
  | operand ch _ _ => cases ch <;> first | exact .inl ⟨rfl, rfl⟩ | cases hp'
  | rest | further => exact .inl ⟨hp', rfl⟩
  | entries | entry | moreEntries | andOr | pipe => exact .inl ⟨rfl, rfl⟩
  | _ => cases hp'

/-- How many tokens are taken at least before a command is called: a word has to be opened for
there to be commands in it. -/
def Production.ahead : Production → Nat
  | many p => p.ahead
  | assign | word | piece _ => 1
  | _ => 0

/-- The same for the commands below the one that a call of `command` yields itself. -/
def Production.aheadWithin : Production → Nat
  | command => 1
  | p => p.ahead

/-- Only pieces take a token themselves before they call for commands. -/
theorem Production.Calls.aheadWithin_le {p p' : Production} {shift : Shift} (h : p.Calls shift p')
    (hpiece : ∀ adjacent, p ≠ .piece adjacent) : p.aheadWithin ≤ p'.ahead := by
  cases h with
  | list adjacent | quoted adjacent => exact absurd rfl (hpiece adjacent)
  | braced h | arithClosed h =>
    obtain rfl | ⟨adjacent, rfl⟩ := h
    · exact Nat.zero_le _
    · exact absurd rfl (hpiece adjacent)
  | one | more | assigns | words | value | piece | pieces => exact Nat.le_refl _
  | _ => exact Nat.zero_le _

/-- A word that is there is opened by a token. -/
theorem Records.ne_nil {c : Context} {p : Production} {place place' : Scan} {ns : List Node}
    {xs : List Taken} (h : Records c p place ns xs place') (hp : 1 ≤ p.ahead) (hns : ns ≠ []) :
    xs ≠ [] := by
  suffices hall : 1 ≤ p.ahead → ns ≠ [] → xs ≠ [] from hall hp hns
  refine h.induct (P := fun _ p _ ns xs _ => 1 ≤ p.ahead → ns ≠ [] → xs ≠ [])
    fun {c p place ns xs place'} hbody hp hns => ?_
  cases p with
  | many p =>
    obtain ⟨o, ys, place₁, zs, hfirst, hrest, rfl⟩ := records_bind.mp hbody
    obtain ⟨ms, hms, rfl⟩ := records_first?.mp hfirst
    cases ms with
    | nil => exact absurd hrest.1 hns
    | cons n ms => exact List.append_ne_nil_of_left_ne_nil (hms.2 hp (List.cons_ne_nil n ms)) _
  | word =>
    obtain ⟨o, ys, place₁, zs, hfirst, hrest, rfl⟩ := records_bind.mp hbody
    obtain ⟨ms, hms, rfl⟩ := records_first?.mp hfirst
    cases ms with
    | nil => exact absurd hrest.1 hns
    | cons n ms =>
      exact List.append_ne_nil_of_left_ne_nil (hms.2 (Nat.le_refl 1) (List.cons_ne_nil n ms)) _
  | assign =>
    obtain ⟨o, ys, place₁, zs, haccept, hrest, rfl⟩ := records_bind.mp hbody
    obtain ⟨ts, ⟨t, -, -, rfl, -⟩ | ⟨-, rfl, -, -⟩, rfl⟩ := records_query.mp haccept
    · exact List.cons_ne_nil _ _
    · exact absurd hrest.1 hns
  | piece adjacent =>
    obtain ⟨o, ys, place₁, zs, htake, hrest, rfl⟩ := records_bind.mp hbody
    obtain ⟨ts, ⟨t, -, ⟨-, -, rfl, -⟩ | ⟨-, rfl, -, -⟩⟩, rfl⟩ := records_query.mp htake
    · exact List.cons_ne_nil _ _
    · exact absurd hrest.1 hns
  | _ => cases hp

/-- A simple command takes what its assignments take, and then what its words take. -/
theorem Records.command_cases {c : Context} {place place' : Scan} {ns : List Node}
    {xs : List Taken} (h : Records c .command place ns xs place') :
    ∃ as bs ys zs place₁, Records c (.many .assign) place as ys place₁ ∧
      Records c (.many .word) place₁ bs zs place' ∧ xs = ys ++ zs ∧
      ns = [.simpleCommand as bs] ∧ (as ≠ [] ∨ bs ≠ []) := by
  obtain ⟨as, ys, place₁, _, hassigns, hrest, rfl⟩ := records_bind.mp (records_iff.mp h)
  obtain ⟨bs, zs, place₂, us, hwords, hnode, rfl⟩ := records_bind.mp hrest
  split at hnode
  · exact hnode.elim
  · rename_i hsome
    obtain ⟨rfl, rfl, rfl⟩ := hnode
    refine ⟨as, bs, ys, zs, place₁, records_all.mp hassigns, records_all.mp hwords,
      by rw [List.append_nil], rfl, ?_⟩
    rw [Bool.and_eq_true, List.isEmpty_iff, List.isEmpty_iff] at hsome
    exact Decidable.not_and_iff_or_not.mp hsome

theorem Records.command_ne_nil {c : Context} {place place' : Scan} {ns : List Node}
    {xs : List Taken} (h : Records c .command place ns xs place') : xs ≠ [] := by
  obtain ⟨as, bs, ys, zs, place₁, hassigns, hwords, rfl, -, has | hbs⟩ := h.command_cases
  · exact List.append_ne_nil_of_left_ne_nil (hassigns.ne_nil (Nat.le_refl 1) has) _
  · exact List.append_ne_nil_of_right_ne_nil _ (hwords.ne_nil (Nat.le_refl 1) hbs)

/-! ### Spots -/

/-- A node and the tokens that it is read from. -/
structure Reading where
  node : Node
  tokens : List Token

/-- In the context `c`, a production reads the tokens as the node. -/
def Reading.Of (c : Context) (p : Production) (r : Reading) : Prop :=
  ∃ place xs place', Records c p place [r.node] xs place' ∧ xs.map Taken.token = r.tokens

/-- A simple command and how many tokens stand in front of it: behind these, it is what a call of
`command` reads. -/
def Spot (ts : List Token) (spot : Nat × Reading) : Prop :=
  spot.2.tokens <+: ts.drop spot.1 ∧ ∃ c, c.mode = .base ∧ spot.2.Of c .command

/-- Simple commands one behind the other. -/
structure Spots (low : Nat) (ts : List Token) (spots : List (Nat × Reading)) : Prop where
  ordered : spots.Pairwise fun a b => a.1 < b.1
  low_le : ∀ s ∈ spots, low ≤ s.1
  spot : ∀ s ∈ spots, Spot ts s

/-- The same simple commands, with more tokens in front of them. -/
def later (n : Nat) (spots : List (Nat × Reading)) : List (Nat × Reading) :=
  spots.map fun s => (n + s.1, s.2)

/-- The simple commands themselves. -/
def nodesOf (spots : List (Nat × Reading)) : List Node := spots.map fun s => s.2.node

theorem nodesOf_later (n : Nat) (spots : List (Nat × Reading)) :
    nodesOf (later n spots) = nodesOf spots := List.map_map ..

theorem nodesOf_append (spots spots' : List (Nat × Reading)) :
    nodesOf (spots ++ spots') = nodesOf spots ++ nodesOf spots' := List.map_append

section Spots
variable {ts us : List Token} {s : Nat × Reading} {low : Nat} {spots spots' : List (Nat × Reading)}

theorem Spot.lt (h : Spot ts s) : s.1 < ts.length := by
  obtain ⟨hfront, _, -, _, xs, _, hcall, htokens⟩ := h
  have hlength := hfront.length_le
  have hpos := List.length_pos_iff.mpr hcall.command_ne_nil
  rw [← htokens, List.length_map, List.length_drop] at hlength
  omega

theorem Spot.append (h : Spot ts s) : Spot (ts ++ us) s := by
  refine ⟨?_, h.2⟩
  rw [List.drop_append_of_le_length (Nat.le_of_lt h.lt)]
  exact h.1.trans (List.prefix_append _ _)

theorem Spot.behind (h : Spot us s) : Spot (ts ++ us) (ts.length + s.1, s.2) := by
  refine ⟨?_, h.2⟩
  rw [List.drop_append, List.drop_of_length_le (Nat.le_add_right _ _), List.nil_append,
    Nat.add_sub_cancel_left]
  exact h.1

theorem Spots.nil : Spots low ts [] :=
  ⟨.nil, List.forall_mem_nil _, List.forall_mem_nil _⟩

theorem Spots.mono {low' : Nat} (h : Spots low ts spots) (hle : low' ≤ low) :
    Spots low' ts spots :=
  ⟨h.ordered, fun s hs => Nat.le_trans hle (h.low_le s hs), h.spot⟩

theorem Spots.behind (h : Spots low us spots) (ts : List Token) :
    Spots (ts.length + low) (ts ++ us) (later ts.length spots) where
  ordered := List.pairwise_map.mpr (h.ordered.imp fun hlt => Nat.add_lt_add_left hlt _)
  low_le := List.forall_mem_map.mpr fun s hs => Nat.add_le_add_left (h.low_le s hs) _
  spot := List.forall_mem_map.mpr fun s hs => (h.spot s hs).behind

theorem Spots.append (h : Spots low ts spots) (h' : Spots low us spots') :
    Spots low (ts ++ us) (spots ++ later ts.length spots') := by
  have hbehind := h'.behind ts
  refine ⟨List.pairwise_append.mpr ⟨h.ordered, hbehind.ordered, fun a ha b hb => ?_⟩,
    List.forall_mem_append.mpr ⟨h.low_le, fun s hs => ?_⟩,
    List.forall_mem_append.mpr ⟨fun s hs => (h.spot s hs).append, hbehind.spot⟩⟩
  · have hlow := hbehind.low_le b hb
    have hlt := (h.spot a ha).lt
    omega
  · have hlow := hbehind.low_le s hs
    omega

end Spots

/-- The simple commands in some nodes are among those of some spots, as far as they are not in what
was given. -/
def Spotting (low : Nat) (lefts ns : List Node) (xs : List Taken) : Prop :=
  ∃ spots, Spots low (xs.map Taken.token) spots ∧
    (ns.flatMap Node.commands).Sublist (lefts.flatMap Node.commands ++ nodesOf spots)

/-- What a reader puts together of calls has the simple commands of the calls. -/
theorem Reader.RecordsBy.spotting {below : Recording} {Q : (β : Type) → Query β → Prop}
    {C : Shift → Production → Prop} {α : Type} {m : Reader α} {c : Context} {place place' : Scan}
    {a : α} {xs : List Taken} {given : List Node} {post : List Node → α → Prop} {low : Nat}
    (h : m.RecordsBy below c place a xs place') (hm : m.Within Q C) (hbuilds : m.Builds given post)
    (hbelow : ∀ shift p start ns ys stop, C shift p → below (c.shift shift) p start ns ys stop →
      Spotting low p.lefts ns ys) :
    ∃ given', post given' a ∧ Spotting low given given' xs := by
  induction m generalizing place xs given with
  | done b =>
    obtain ⟨rfl, rfl, -⟩ := h
    exact ⟨given, hbuilds, [], .nil, List.sublist_append_left _ _⟩
  | stop => exact h.elim
  | ask q k ih =>
    obtain ⟨b, ts, place₁, ys, -, hrest, rfl⟩ := h
    obtain ⟨given', hpost, spots, hspots, hsub⟩ := ih b hrest (hm.2 b) (hbuilds b)
    have hbehind := hspots.behind ((Log.note c q b ts : List Taken).map Taken.token)
    rw [← List.map_append] at hbehind
    refine ⟨given', hpost, _, hbehind.mono (Nat.le_add_left _ _), ?_⟩
    rwa [nodesOf_later]
  | call shift p k ih =>
    obtain ⟨ns, ws, place₁, ys, hcall, hrest, rfl⟩ := h
    obtain ⟨front, hfront, hbuilds⟩ := hbuilds
    obtain ⟨now, hnow, hns⟩ := hbelow _ _ _ _ _ _ hm.1 hcall
    obtain ⟨given', hpost, spots, hspots, hsub⟩ := ih ns hrest (hm.2 ns) (hbuilds ns)
    have hboth := hnow.append hspots
    rw [← List.map_append] at hboth
    refine ⟨given', hpost, _, hboth, hsub.trans ?_⟩
    rw [nodesOf_append, nodesOf_later, List.flatMap_append, ← List.append_assoc]
    refine List.Sublist.append (((List.Sublist.refl _).append hns).trans ?_) (List.Sublist.refl _)
    rw [← List.append_assoc, ← List.flatMap_append]
    exact List.Sublist.append hfront (List.Sublist.refl _)

/-- A simple command has the nodes of its calls as children, in this order. -/
theorem builds_command : Production.command.body.Builds [] fun given ns =>
    ∀ n ∈ ns, n.children = given := by
  simp only [Production.body, builds_bind, builds_all]
  refine ⟨[], .refl, fun assigns => ⟨assigns, .keep, fun body => ?_⟩⟩
  split
  · trivial
  · exact List.forall_mem_singleton.mpr rfl

/-- What is taken in a call is in the spots. -/
def Spotted : Recording := fun c p _ ns xs _ =>
  p.Sane → (p.isListPart = true → c.mode = .base) → Spotting p.ahead p.lefts ns xs

/-- The simple commands in what a production yields are what calls of `command` yield, from the
first of them to the last further on in what is taken. -/
theorem Records.spotted {c : Context} {p : Production} {place place' : Scan} {ns : List Node}
    {xs : List Taken} (h : Records c p place ns xs place') : Spotted c p place ns xs place' := by
  refine h.induct fun {c p place ns xs place'} hbody hp hmode => ?_
  have hcalls : ∀ {low : Nat}, (∀ shift p', p.Calls shift p' → low ≤ p'.ahead) →
      ∀ shift p' start ms ys stop, p.Calls shift p' →
        Records (c.shift shift) p' start ms ys stop ∧
          Spotted (c.shift shift) p' start ms ys stop → Spotting low p'.lefts ms ys := by
    rintro low hlow shift p' start ms ys stop hcalls ⟨-, hcall⟩
    obtain ⟨spots, hspots, hsub⟩ := hcall (hcalls.sane hp) fun hpart => by
      obtain ⟨hpart, rfl⟩ | ⟨closer, rfl⟩ := hcalls.isListPart hp hpart
      · exact hmode hpart
      · rfl
    exact ⟨spots, hspots.mono (hlow shift p' hcalls), hsub⟩
  by_cases hpiece : ∃ adjacent, p = .piece adjacent
  · obtain ⟨adjacent, rfl⟩ := hpiece
    obtain ⟨o, ys, place₁, zs, htake, hrest, rfl⟩ := records_bind.mp hbody
    obtain ⟨ts, ⟨t, -, ⟨-, rfl, rfl, -⟩ | ⟨-, rfl, -, -⟩⟩, rfl⟩ := records_query.mp htake
    · obtain ⟨given, hstem, spots, hspots, hsub⟩ := hrest.spotting
        ((covers_body (.piece adjacent)).2 (some t.lexeme)) (Stems.pieceRest t.lexeme)
        (hcalls fun _ _ _ => Nat.zero_le _)
      exact ⟨later 1 spots, hspots.behind [t],
        (nodesOf_later 1 spots).symm ▸ List.Sublist.trans hstem hsub⟩
    · obtain ⟨rfl, rfl, -⟩ := records_pure.mp hrest
      exact ⟨[], .nil, List.nil_sublist _⟩
  have hwithin : ∀ shift p', p.Calls shift p' → p.aheadWithin ≤ p'.ahead := fun _ _ hcall =>
    hcall.aheadWithin_le fun adjacent heq => hpiece ⟨adjacent, heq⟩
  by_cases hcommand : p = .command
  · subst hcommand
    have hrecords := records_iff.mpr (hbody.mono fun _ _ _ _ _ _ hcall => hcall.1)
    obtain ⟨given, hchildren, spots, hspots, hsub⟩ := hbody.spotting (covers_body .command)
      builds_command (hcalls hwithin)
    obtain ⟨as, bs, -, -, -, -, -, -, rfl, -⟩ := hrecords.command_cases
    refine ⟨(0, ⟨.simpleCommand as bs, xs.map Taken.token⟩) :: spots,
      ⟨?_, fun _ _ => Nat.zero_le _, ?_⟩, ?_⟩
    · exact List.pairwise_cons.mpr ⟨hspots.low_le, hspots.ordered⟩
    · refine List.forall_mem_cons.mpr ⟨?_, hspots.spot⟩
      exact ⟨List.prefix_refl _, c, hmode rfl, place, xs, place', hrecords, rfl⟩
    · rw [List.flatMap_singleton, Node.commands_eq, hchildren _ (List.mem_singleton.mpr rfl)]
      exact hsub.cons_cons _
  · have hsame : p.aheadWithin = p.ahead := by
      cases p with
      | command => exact absurd rfl hcommand
      | _ => rfl
    obtain ⟨given, hstem, spots, hspots, hsub⟩ := hbody.spotting (covers_body p)
      (Stems.body hcommand hp) (hcalls hwithin)
    exact ⟨spots, hsame ▸ hspots, List.Sublist.trans hstem hsub⟩

end ShellGrammar
