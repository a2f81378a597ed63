import ShellGrammar.Proofs.Log.Parting
import ShellGrammar.Proofs.Log.Splice
import ShellGrammar.Proofs.Reader.Script
import ShellGrammar.Proofs.Tree.Need

/-! The log of a script.

A run that succeeds has a log. Its questions look at nothing but what is taken, they are asked in
order, and where a token that divides is taken the log falls apart (`Answered.parted`). A text that
is guided by the log of a tree parses to that tree (`parse_of_guides`). -/
namespace ShellGrammar
open Grammar ParseM

/-! ### The log of a run -/

variable {options : Options} {source : Text} {t : Node} {s : ParseState}

/-- The log of a script: it looks at nothing but what is taken, and it is in order. -/
structure ScriptLog (source : Text) (t : Node) (place : Scan) (as : List Asked) : Prop where
  logs : Logs .script (.list .endOfSource) [t] as
  answered : Answered as (.ofText source) place
  heeded : Heeded as
  orderly : Orderly as
  skipping : Skipping as
  ends : place.rest = []

/-- A run that succeeds has a log, and it consumes what the answers take. -/
theorem scriptLog_of_run (h : run options source = .ok t s) :
    ∃ as, ScriptLog source t s.here as ∧ s.lexer.consumed = (takenIn as).map Taken.token ∧
      Records .script (.list .endOfSource) (.ofText source) [t] (takenIn as) s.here := by
  obtain ⟨xs, hrecords, hconsumed⟩ := run_records (run_unlimited h)
  obtain ⟨as, hlogs, hanswered, rfl⟩ := hrecords.logs
  have hlooking : Looking .command (as ++ []) :=
    hlogs.heeded hanswered rfl trivial fun hopen => Bool.noConfusion hopen
  have hordered : Orderly (as ++ []) ∧ (true = true → Skipping (as ++ [])) :=
    hlogs.ordered hanswered ⟨rfl, rfl, trivial⟩ trivial trivial
  rw [List.append_nil] at hlooking hordered
  refine ⟨as, ⟨hlogs, hanswered, hlooking.1, hordered.1, hordered.2 rfl, ?_⟩, hconsumed, hrecords⟩
  obtain ⟨es, last, front, -, hscript, hlast⟩ := Script.of_run (run_unlimited h)
  have htiles := hrecords.tiles
  rw [← hconsumed] at htiles
  rw [htiles.end_eq, hlast, List.getLast?_concat, Option.map_some, Option.getD_some]
  exact Rules.rest_after_eos hscript.lexed hscript.ends

/-- A text that a log guides parses to its tree, if that needs no more levels than one that the limit
allows. -/
theorem parse_of_guides {source' : Text} {t' : Node} {as : List Asked} {place : Scan}
    (h : run options source = .ok t s) (hlogs : Logs .script (.list .endOfSource) [t'] as)
    (hguides : Guides as (.ofText source') place) (hneed : t'.need = t.need) :
    parse options source' = .ok t' := by
  obtain ⟨es, last, rfl, hscript⟩ := Script.of_list (hlogs.parses hguides)
  obtain ⟨limit⟩ := options
  rcases Nat.eq_zero_or_pos limit with rfl | hpos
  · exact hscript.parse_eq
  · exact parse_of_need_le hpos hscript.parse_eq (hneed ▸ need_le_of_run hpos h)

/-! ### Where a log falls apart -/

theorem Heeded.of_append {us vs : List Asked} (h : Heeded (us ++ vs)) : Heeded vs := by
  induction us with
  | nil => exact h
  | cons a us ih => exact ih h.2

theorem Orderly.of_append {us vs : List Asked} (h : Orderly (us ++ vs)) : Orderly vs := by
  induction us with
  | nil => exact h
  | cons a us ih => exact ih h.2

/-- The text of what was taken. -/
def textIn (xs : List Taken) : Text := xs.flatMap fun x => x.token.text

theorem textIn_eq (xs : List Taken) : textIn xs = (xs.map Taken.token).flatMap Token.text :=
  (List.flatMap_map ..).symm

theorem Answered.rest {as : List Asked} {place place' : Scan} (h : Answered as place place') :
    place.rest = textIn (takenIn as) ++ place'.rest := by
  rw [textIn_eq]
  exact h.tiles.rest

theorem textIn_append (xs ys : List Taken) : textIn (xs ++ ys) = textIn xs ++ textIn ys :=
  List.flatMap_append

/-- The tokens in front of a place where something is left have a text that is more than a backslash. -/
theorem ScriptLog.bodies {place : Scan} {us vs : List Asked} {e : Scan}
    (h : ScriptLog source t e (us ++ vs)) (hus : Answered us (.ofText source) place) (hrest : place.rest ≠ []) :
    ∀ u ∈ (takenIn us).map Taken.token, u.body ≠ [] ∧ u.body ≠ ['\\'] := by
  intro u hu
  obtain ⟨hempty, hslash⟩ := h.logs.bodies rfl h.answered u (by
    rw [takenIn_append, List.map_append]
    exact List.mem_append_left _ hu)
  exact ⟨fun hnil => hrest (hus.tiles.rest_nil hu (hempty hnil)), hslash⟩

/-- What divides is taken alone, and as the rules in force make it. -/
theorem Query.Gives.divider {c : Context} {β : Type} {q : Query β} {b : β} {ts : List Token}
    {place place' : Scan} (h : q.Gives c place b ts place') {t : Token} (ht : t ∈ ts)
    (hkind : t.kind ∈ dividers) :
    ts = [t] ∧ c.mode.rules.tokenAt place = .ok t ∧ place' = t.after ∧ q.wanted c.inBackquote t.kind = true := by
  cases q with
  | take adjacent want =>
    obtain ⟨u, hu, ⟨hwants, -, rfl, rfl⟩ | ⟨-, -, rfl, -⟩⟩ := h
    · obtain rfl := List.mem_singleton.mp ht
      exact ⟨rfl, Context.token?_eq_some.mp hu, rfl, (Context.wants_iff.mp hwants).1⟩
    · cases ht
  | peek want =>
    obtain ⟨_, -, -, rfl, -⟩ := h
    cases ht
  | _ => exact absurd hkind (h.not_divider (fun _ _ => rfl) t ht)

/-- Where a token is taken a log falls apart, into what is asked in front, the question that takes it
and what is asked behind. -/
structure Parted (place place' : Scan) (x : Taken) (us : List Asked) (q : Asked) (vs : List Asked) : Prop where
  front : Answered us place x.token.origin
  tokens : q.tokens = [x.token]
  context : q.context = x.context
  cut : x.rules.tokenAt x.token.origin = .ok x.token
  wanted : q.query.wanted x.context.inBackquote x.kind = true
  back : Answered vs x.token.after place'

theorem Parted.taken {place place' : Scan} {x : Taken} {us vs : List Asked} {q : Asked}
    (h : Parted place place' x us q vs) : takenIn (us ++ [q]) = takenIn us ++ [x] := by
  rw [takenIn_append, takenIn_cons, takenIn_nil, List.append_nil, Asked.taken, h.tokens, h.context]
  rfl

/-- A log falls apart where something that divides is taken. -/
theorem Answered.parted {as : List Asked} {place place' : Scan} {front back : List Taken} {x : Taken}
    (h : Answered as place place') (hxs : takenIn as = front ++ x :: back) (hkind : x.kind ∈ dividers) :
    ∃ us q vs, as = us ++ q :: vs ∧ takenIn us = front ∧ takenIn vs = back ∧ Parted place place' x us q vs := by
  induction as generalizing place front with
  | nil => exact absurd hxs.symm (List.append_ne_nil_of_right_ne_nil _ (List.cons_ne_nil _ _))
  | cons q as ih =>
    obtain ⟨place₁, hgives, hrest⟩ := h
    rw [takenIn_cons] at hxs
    obtain ⟨vs', hq, rfl⟩ | ⟨us', rfl, hsecond⟩ := (cut_append hxs.symm).symm
    · -- It is taken by the first question, and nothing else is.
      obtain ⟨t, ht, rfl⟩ := List.mem_map.mp (show x ∈ q.taken from hq ▸ List.mem_append_right _ List.mem_cons_self)
      obtain ⟨hts, hcut, rfl, hwanted⟩ := hgives.divider ht hkind
      obtain rfl := (Rules.tokenAt_fits hcut).1
      obtain ⟨rfl, rfl⟩ : front = [] ∧ vs' = [] := by
        have hlength := congrArg List.length hq
        rw [Asked.taken, hts, List.length_map, List.length_singleton, List.length_append, List.length_cons]
          at hlength
        exact ⟨List.eq_nil_of_length_eq_zero (by omega), List.eq_nil_of_length_eq_zero (by omega)⟩
      exact ⟨[], q, as, rfl, rfl, rfl, rfl, hts, rfl, hcut, hwanted, hrest⟩
    · obtain ⟨us, q', vs, rfl, rfl, rfl, hparted⟩ := ih hrest hsecond
      exact ⟨q :: us, q', vs, rfl, takenIn_cons q us, rfl, { hparted with front := ⟨place₁, hgives, hparted.front⟩ }⟩

end ShellGrammar
