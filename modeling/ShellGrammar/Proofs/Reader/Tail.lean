import ShellGrammar.Proofs.Reader.Transfer
import ShellGrammar.Proofs.Rules.Inside

/-! Productions inside what will be closed.

As long as a closer is ahead, a production does not see where its text ends: with another
tail behind the text it reads the same (`Parses.fork`). A production that ends with a
closer of its own always has one ahead, so what it reads depends on nothing behind it
(`Parses.fork_of_closing`, `Parses.tail_of_closing`). -/
namespace ShellGrammar
open Grammar ParseM Rules

/-! ### Two tails -/

/-- At two places stands the same, and then at each a tail of its own. -/
def Scan.Fork (tail tail' : Text) (a b : Scan) : Prop :=
  ∃ m : Scan, m.Ahead tail a ∧ m.Ahead tail' b

variable {c : Context} {tail tail' : Text} {a a₁ b : Scan} {t : Token}

namespace Scan

theorem Ahead.fork (h : a.Ahead tail' b) : a.Fork [] tail' b :=
  ⟨a, ⟨(List.append_nil _).symm, rfl⟩, h⟩

theorem Fork.ahead (h : a.Fork [] tail' b) : a.Ahead tail' b := by
  obtain ⟨m, hm, hb⟩ := h
  refine ⟨?_, hb.boundary.trans hm.boundary.symm⟩
  rw [hm.rest, hb.rest, List.append_nil]

namespace Fork

/-- Where something is to be closed, a token like it is read. -/
theorem token?_alike (h : a.Fork tail tail' b) (htail : tail.isInert = true)
    (htail' : tail'.isInert = true) (ht : c.token? a = some t) (hopen : a.OpenTo tail) :
    ∃ t', c.token? b = some t' ∧ t.Alike t' := by
  obtain ⟨m, hm, hb⟩ := h
  have hopen := hm.openTo.mp hopen
  have hthere : ∃ u, c.token? m = some u ∧ u.Alike t := by
    cases hm.tokenAt_inside hopen htail c.mode.rules with
    | same hsame =>
      rw [Context.token?, hsame, Option.map_eq_some_iff] at ht
      obtain ⟨u, hu, rfl⟩ := ht
      exact ⟨u, hu, .moved u a⟩
    | alike hu ht' halike =>
      rw [Context.token?_eq_some, ht'] at ht
      cases ht
      exact ⟨_, Context.token?_eq_some.mpr hu, halike⟩
  obtain ⟨u, hu, halike⟩ := hthere
  cases hb.tokenAt_inside hopen htail' c.mode.rules with
  | same hsame =>
    refine ⟨u.at b, ?_, halike.symm.trans (.moved u b)⟩
    rw [Context.token?] at hu ⊢
    rw [hsame, hu]
    rfl
  | alike hu' ht' halike' =>
    rw [Context.token?_eq_some, hu'] at hu
    cases hu
    exact ⟨_, Context.token?_eq_some.mpr ht', halike.symm.trans halike'⟩

/-- The same token is read if something is to be closed behind it too, or if it is neither
bare text nor the end of the source. -/
theorem token?_at (h : a.Fork tail tail' b) (htail : tail.isInert = true)
    (htail' : tail'.isInert = true) (ht : c.token? a = some t) (hopen : a.OpenTo tail)
    (hend : t.after.OpenTo tail ∨ (t.kind ≠ .str ∧ t.kind ≠ .eos)) :
    c.token? b = some (t.at b) ∧ t.after.Fork tail tail' (t.at b).after := by
  obtain ⟨m, hm, hb⟩ := h
  have hopen := hm.openTo.mp hopen
  have hthere : ∃ u, c.token? m = some u ∧ t = u.at a := by
    cases hm.tokenAt_inside hopen htail c.mode.rules with
    | same hsame =>
      rw [Context.token?, hsame, Option.map_eq_some_iff] at ht
      obtain ⟨u, hu, rfl⟩ := ht
      exact ⟨u, hu, rfl⟩
    | alike hu ht' halike hkind _ hpast =>
      rw [Context.token?_eq_some, ht'] at ht
      cases ht
      rcases hend with hend | ⟨hstr, heos⟩
      · exact absurd hend hpast
      · rw [halike.kind] at hstr heos
        exact absurd hkind (not_or.mpr ⟨hstr, heos⟩)
  obtain ⟨u, hu, rfl⟩ := hthere
  obtain ⟨rfl, hfits⟩ := tokenAt_fits (Context.token?_eq_some.mp hu)
  have hafter := hm.after hfits
  refine ⟨?_, u.after, hafter, hb.after hfits⟩
  cases hb.tokenAt_inside hopen htail' c.mode.rules with
  | same hsame =>
    rw [Context.token?] at hu ⊢
    rw [hsame, hu]
    rfl
  | alike hu' _ _ hkind hpast =>
    rw [Context.token?_eq_some, hu'] at hu
    cases hu
    rcases hend with hend | ⟨hstr, heos⟩
    · exact absurd (hafter.openTo.mp hend) hpast
    · exact absurd hkind (not_or.mpr ⟨hstr, heos⟩)

end Fork
end Scan

/-! ### Questions -/

/-- No shape takes a closer. -/
theorem Shape.avoids (shape : Shape) : ∀ ch ∈ closers, shape.pattern.avoids ch = true := by
  intro ch hch
  simp only [closers, List.mem_cons, List.not_mem_nil, or_false] at hch
  rcases hch with rfl | rfl | rfl | rfl <;> cases shape <;> rfl

theorem Token.Alike.wants {t t' : Token} (h : t.Alike t') (adjacent : Bool)
    (want : Kind → Bool) : c.wants adjacent want t' = c.wants adjacent want t := by
  simp only [Context.wants, h.kind, h.isAdjacent]

/-- Where a token takes no closer, what is to be closed is behind it. -/
theorem Scan.OpenTo.of_token {rules : Rules} (h : a.OpenTo tail) (ht : rules.tokenAt a = .ok t)
    (heos : t.kind ≠ .eos) (hnewline : t.kind ≠ .newline) (hbody : ¬ t.body.Open) :
    t.after.OpenTo tail := by
  obtain ⟨u, hu, hopen⟩ := h
  have hfront : ¬ Text.Open (t.blank ++ t.body) := by
    rw [Text.open_append, not_or, (tokenAt_blank ht heos hnewline).1]
    exact ⟨Text.not_open_of_barren (isBarren_blank rules a.rest), hbody⟩
  have hsplit : u ++ tail = (t.blank ++ t.body) ++ t.after.rest := by
    rw [← hu, tokenAt_front ht, List.append_assoc]
  obtain ⟨v, hv, _⟩ | ⟨v, hv, hrest⟩ := List.append_eq_append_iff.mp hsplit
  · exact absurd (hv ▸ Text.open_append.mpr (.inl hopen)) hfront
  · refine ⟨v, hrest, ?_⟩
    rw [hv, Text.open_append] at hopen
    exact hopen.resolve_left hfront

namespace Scan.Fork

theorem mark (h : a.Fork tail tail' b) (hopen : a.OpenTo tail) {shape : Shape}
    {pastBlank : Bool} {o : Option Text}
    (hq : (Query.mark shape pastBlank).answer c a = some (o, a₁)) :
    ∃ b₁, (Query.mark shape pastBlank).answer c b = some (o, b₁) ∧ a₁.Fork tail tail' b₁ := by
  have hfork := h
  obtain ⟨m, hm, hb⟩ := h
  have hopen := hm.openTo.mp hopen
  have hthere : c.mode.rules.takeAt shape.pattern shape.kind (pastBlank || c.mode.allowBlank) a =
      (c.mode.rules.takeAt shape.pattern shape.kind (pastBlank || c.mode.allowBlank) m).map (·.at a) :=
    hm.takeAt_inside hopen shape.avoids _ _
  have hthere' : c.mode.rules.takeAt shape.pattern shape.kind (pastBlank || c.mode.allowBlank) b =
      (c.mode.rules.takeAt shape.pattern shape.kind (pastBlank || c.mode.allowBlank) m).map (·.at b) :=
    hb.takeAt_inside hopen shape.avoids _ _
  cases o with
  | none =>
    obtain ⟨hnone, rfl⟩ := Query.mark_none.mp hq
    rw [hnone, eq_comm, Option.map_eq_none_iff] at hthere
    rw [hthere] at hthere'
    exact ⟨b, Query.mark_none.mpr ⟨hthere', rfl⟩, hfork⟩
  | some body =>
    obtain ⟨t, ht, rfl, rfl⟩ := Query.mark_some.mp hq
    rw [ht, eq_comm, Option.map_eq_some_iff] at hthere
    obtain ⟨u, hu, rfl⟩ := hthere
    rw [hu] at hthere'
    obtain ⟨rfl, hfits⟩ := takeAt_fits hu
    exact ⟨_, Query.mark_some.mpr ⟨_, hthere', rfl, rfl⟩, u.after, hm.after hfits, hb.after hfits⟩

/-- What closes in front of the tail closes in front of the other. -/
theorem close (h : a.Fork tail tail' b) (hopen : a.OpenTo tail) {closing : Closing}
    {pastBlank : Bool} {u : Unit}
    (hq : (Query.close closing pastBlank).answer c a = some (u, a₁)) (hend : tail <:+ a₁.rest) :
    ∃ b₁, (Query.close closing pastBlank).answer c b = some (u, b₁) ∧
      a₁.Fork tail tail' b₁ := by
  obtain ⟨m, hm, hb⟩ := h
  have hopen := hm.openTo.mp hopen
  obtain ⟨t, ht, rfl⟩ := Query.close_iff.mp hq
  obtain ⟨v, hv, rfl⟩ := hm.takeAt_lit_front hopen ht hend
  obtain ⟨rfl, hfits⟩ := takeAt_fits hv
  exact ⟨_, Query.close_iff.mpr ⟨_, hb.takeAt_lit hopen hv, rfl⟩, v.after, hm.after hfits,
    hb.after hfits⟩

/-- As long as a closer is ahead, all questions are answered alike. -/
theorem answer (h : a.Fork tail tail' b) (htail : tail.isInert = true)
    (htail' : tail'.isInert = true) {β : Type} {q : Query β} {r : β}
    (hq : q.answer c a = some (r, a₁)) (hend : a₁.OpenTo tail) :
    ∃ b₁, q.answer c b = some (r, b₁) ∧ a₁.Fork tail tail' b₁ := by
  have hopen : a.OpenTo tail := hend.of_suffix (Query.suffix_of_answer hq)
  cases q with
  | take adjacent want =>
    cases r with
    | none =>
      obtain ⟨t, ht, hwants, rfl⟩ := Query.take_none.mp hq
      obtain ⟨t', ht', halike⟩ := h.token?_alike htail htail' ht hopen
      exact ⟨b, Query.take_none.mpr ⟨t', ht', (halike.wants ..).trans hwants, rfl⟩, h⟩
    | some l =>
      obtain ⟨t, ht, hwants, rfl, rfl⟩ := Query.take_some.mp hq
      obtain ⟨ht', hafter⟩ := h.token?_at htail htail' ht hopen (.inl hend)
      exact ⟨_, Query.take_some.mpr ⟨_, ht', hwants, rfl, rfl⟩, hafter⟩
  | peek want =>
    obtain ⟨t, ht, hwants, rfl⟩ := Query.peek_iff.mp hq
    obtain ⟨t', ht', halike⟩ := h.token?_alike htail htail' ht hopen
    exact ⟨b, Query.peek_iff.mpr ⟨t', ht', (halike.wants ..).trans hwants, rfl⟩, h⟩
  | mark shape pastBlank => exact h.mark hopen hq
  | close closing pastBlank =>
    obtain ⟨u, hu, _⟩ := hend
    exact h.close hopen hq ⟨u, hu.symm⟩
  | bang =>
    obtain ⟨t, ht, hcase⟩ := Query.bang_iff.mp hq
    obtain ⟨hno, hr, rfl⟩ | ⟨⟨hwants, hbody⟩, u, hu, hcase⟩ := hcase
    · obtain ⟨t', ht', halike⟩ := h.token?_alike htail htail' ht hopen
      refine ⟨b, Query.bang_iff.mpr ⟨t', ht', .inl ⟨?_, hr, rfl⟩⟩, h⟩
      rw [halike.wants, halike.bang]
      exact hno
    · have hkind : t.kind = .str := by
        simpa [among] using (Context.wants_iff.mp hwants).1
      have hclosed : ¬ t.body.Open := by
        rw [hbody]
        rintro ⟨ch, hcloser, hmem⟩
        rw [List.mem_singleton] at hmem
        subst hmem
        exact absurd hcloser (by decide)
      have hopen₁ : t.after.OpenTo tail := hopen.of_token (Context.token?_eq_some.mp ht)
        (by rw [hkind]; decide) (by rw [hkind]; decide) hclosed
      obtain ⟨ht', hafter⟩ := h.token?_at htail htail' ht hopen (.inl hopen₁)
      obtain ⟨u', hu', halike⟩ := hafter.token?_alike htail htail' hu hopen₁
      obtain ⟨hadjacent, hr, rfl⟩ | ⟨hadjacent, hr, rfl⟩ := hcase
      · exact ⟨b, Query.bang_iff.mpr ⟨_, ht', .inr ⟨⟨hwants, hbody⟩, u', hu',
          .inl ⟨(halike.wants ..).trans hadjacent, hr, rfl⟩⟩⟩, h⟩
      · exact ⟨_, Query.bang_iff.mpr ⟨_, ht', .inr ⟨⟨hwants, hbody⟩, u', hu',
          .inr ⟨(halike.wants ..).trans hadjacent, hr, rfl⟩⟩⟩, hafter⟩
  | target =>
    obtain ⟨t, ht, hcase⟩ := Query.target_iff.mp hq
    obtain ⟨hwants, hr, rfl⟩ | ⟨hwants, u, hu, hcase⟩ := hcase
    · obtain ⟨t', ht', halike⟩ := h.token?_alike htail htail' ht hopen
      exact ⟨b, Query.target_iff.mpr ⟨t', ht', .inl ⟨(halike.wants ..).trans hwants, hr, rfl⟩⟩, h⟩
    · have hkind : t.kind = .ident := by
        simpa [among] using (Context.wants_iff.mp hwants).1
      have hlexed := Context.token?_eq_some.mp ht
      have hopen₁ : t.after.OpenTo tail := hopen.of_token hlexed (by rw [hkind]; decide)
        (by rw [hkind]; decide) (Text.not_open_of_name (isVariableName_of_ident hlexed hkind))
      obtain ⟨ht', hafter⟩ := h.token?_at htail htail' ht hopen (.inl hopen₁)
      obtain ⟨hno, hr, rfl⟩ | ⟨hyes, rfl, rfl⟩ := hcase
      · obtain ⟨u', hu', halike⟩ := hafter.token?_alike htail htail' hu hopen₁
        exact ⟨b, Query.target_iff.mpr ⟨_, ht', .inr ⟨hwants, u', hu',
          .inl ⟨(halike.wants ..).trans hno, hr, rfl⟩⟩⟩, h⟩
      · obtain ⟨hu', hafter'⟩ := hafter.token?_at htail htail' hu hopen₁ (.inl hend)
        exact ⟨_, Query.target_iff.mpr ⟨_, ht', .inr ⟨hwants, _, hu', .inr ⟨hyes, rfl, rfl⟩⟩⟩,
          hafter'⟩

end Scan.Fork

/-! ### Productions -/

/-- Productions that end with what closes them. -/
def Production.IsClosing : Production → Prop
  | quoted | braced | arithClosed | list .paren | list .backquote => True
  | _ => False

theorem Scan.openTo_of_token {rules : Rules} {kind : Kind} {ch : Char}
    (ht : rules.tokenAt a = .ok t) (hkind : t.kind = kind) (hspelling : kind.spelling? = some [ch])
    (hch : ch ∈ closers) (hend : tail <:+ t.after.rest) : a.OpenTo tail := by
  obtain ⟨u, hu⟩ := hend
  refine ⟨t.blank ++ (ch :: u), ?_, ch, hch, by simp⟩
  rw [tokenAt_front ht, body_of_spelling ht (hkind ▸ hspelling), ← hu]
  simp

theorem Scan.openTo_of_close {closing : Closing} {pastBlank : Bool} {u : Unit}
    (hclosing : closing ≠ .bracket)
    (h : (Query.close closing pastBlank).answer c a = some (u, a₁)) (hend : tail <:+ a₁.rest) :
    a.OpenTo tail := by
  obtain ⟨t, ht, rfl⟩ := Query.close_iff.mp h
  obtain ⟨_, hmatches⟩ := takeAt_matches ht
  obtain ⟨rfl, hfits⟩ := takeAt_fits ht
  obtain ⟨v, hv⟩ := hend
  refine ⟨t.blank ++ (closing.text ++ v), ?_, ?_⟩
  · rw [Token.rest_origin hfits, Token.text, hmatches.of_lit, ← hv]
    simp
  · rw [Text.open_append, Text.open_append]
    refine .inr (.inl ?_)
    cases closing with
    | bracket => exact absurd rfl hclosing
    | brace => exact ⟨'}', by decide, by decide⟩
    | arith => exact ⟨')', by decide, by decide⟩

/-- With another tail behind the text a production reads the same, if a closer is ahead where
it ends, or if it ends with one. -/
def Carried (tail tail' : Text) : Yielding := fun c p a ns a₁ =>
  a₁.OpenTo tail ∨ (p.IsClosing ∧ tail <:+ a₁.rest) → ∀ b, a.Fork tail tail' b →
    ∃ b₁, Parses c p b ns b₁ ∧ a₁.Fork tail tail' b₁

/-- What is known of calls. -/
abbrev BeforeTail (tail tail' : Text) : Yielding := fun c p a ns a₁ =>
  Parses c p a ns a₁ ∧ Carried tail tail' c p a ns a₁

section Fork
variable (htail : tail.isInert = true) (htail' : tail'.isInert = true)
include htail htail'

theorem carries_open (c : Context) :
    Carries (fun _ _ => True) (fun _ _ => True) (BeforeTail tail tail') Parses c c
      (Scan.Fork tail tail') (Scan.OpenTo tail) where
  ask _ hanswer hopen hfork := hfork.answer htail htail' hanswer hopen
  call _ hcall hopen hfork := hcall.2 (.inl hopen) _ hfork
  asked _ hanswer hopen := hopen.of_suffix (Query.suffix_of_answer hanswer)
  called _ hcall hopen := hopen.of_suffix hcall.1.suffix

/-- A reader that leads to where a closer is ahead. -/
theorem leads_open {α : Type} {m : Reader α} {r : α}
    (h : m.LeadsBy (BeforeTail tail tail') c a r a₁) (hopen : a₁.OpenTo tail)
    (hfork : a.Fork tail tail' b) : ∃ b₁, Leads c m b r b₁ ∧ a₁.Fork tail tail' b₁ :=
  ((carries_open htail htail' c).leads (Reader.within_true m) h hopen).2 b hfork

end Fork

theorem openTo_of_expect {below : Yielding} {kind : Kind} {ch : Char}
    (hspelling : kind.spelling? = some [ch]) (hch : ch ∈ closers) {l : Lexeme}
    (h : (Reader.expect [kind]).LeadsBy below c a l a₁) (hend : tail <:+ a₁.rest) :
    a.OpenTo tail := by
  obtain ⟨t, ht, hwants, _, rfl⟩ := leads_next_some.mp (leads_expect.mp h)
  have hkind : t.kind = kind := by
    simpa [among] using (Context.wants_iff.mp hwants).1
  exact Scan.openTo_of_token (Context.token?_eq_some.mp ht) hkind hspelling hch hend

/-- A string is closed, so a quote is ahead of what is left of it. -/
theorem Parses.openTo_of_quoted {ns : List Node} (h : Parses c .quoted a ns a₁)
    (hend : tail <:+ a₁.rest) : a.OpenTo tail := by
  refine @Parses.induct _ _ _ (fun _ p a _ a₁ => p = .quoted → tail <:+ a₁.rest → a.OpenTo tail)
    ?_ _ _ h rfl hend
  rintro c p a ns a₁ hbody rfl hend
  obtain ⟨o, a₂, hnext, hrest⟩ := leads_bind.mp hbody
  have hforward : a₂.rest <:+ a.rest := Query.suffix_of_answer (leads_query.mp hnext)
  cases o with
  | some l =>
    obtain ⟨_, rfl⟩ := leads_pure.mp hrest
    exact openTo_of_expect rfl (by decide) (leads_expect.mpr hnext) hend
  | none =>
    obtain ⟨o, a₃, hpiece, hrest⟩ := leads_bind.mp hrest
    obtain ⟨ms, hms, _⟩ := leads_first?.mp hpiece
    cases o with
    | none => exact hrest.elim
    | some n =>
      obtain ⟨ns', a₄, hquoted, hlast⟩ := leads_bind.mp hrest
      obtain ⟨_, rfl⟩ := leads_pure.mp hlast
      have hopen : a₃.OpenTo tail := (leads_all.mp hquoted).2 rfl hend
      exact hopen.of_suffix (hms.1.suffix.trans hforward)

/-- A token that closes, in front of the tail. -/
theorem leads_expect_fork (htail : tail.isInert = true) (htail' : tail'.isInert = true)
    {kind : Kind} {ch : Char} (hspelling : kind.spelling? = some [ch]) {l : Lexeme}
    (h : (Reader.expect [kind]).LeadsBy (BeforeTail tail tail') c a l a₁)
    (hopen : a.OpenTo tail) (hfork : a.Fork tail tail' b) :
    ∃ b₁, Leads c (Reader.expect [kind]) b l b₁ ∧ a₁.Fork tail tail' b₁ := by
  obtain ⟨t, ht, hwants, rfl, rfl⟩ := leads_next_some.mp (leads_expect.mp h)
  have hkind : t.kind = kind := by
    simpa [among] using (Context.wants_iff.mp hwants).1
  have hfixed : t.kind ≠ .str ∧ t.kind ≠ .eos := by
    constructor <;> intro hk <;> rw [← hkind, hk] at hspelling <;> cases hspelling
  obtain ⟨ht', hafter⟩ := hfork.token?_at htail htail' ht hopen (.inr hfixed)
  exact ⟨_, leads_expect.mpr (leads_next_some.mpr ⟨_, ht', hwants, rfl, rfl⟩), hafter⟩

/-! Each production that ends with a closer, in turn. -/

namespace Carried
variable (htail : tail.isInert = true) (htail' : tail'.isInert = true)
include htail htail'

theorem quoted {ns : List Node}
    (h : Production.quoted.body.LeadsBy (BeforeTail tail tail') c a ns a₁)
    (hend : tail <:+ a₁.rest) (hfork : a.Fork tail tail' b) :
    ∃ b₁, Leads c Production.quoted.body b ns b₁ ∧ a₁.Fork tail tail' b₁ := by
  obtain ⟨o, a₂, hnext, hrest⟩ := leads_bind.mp h
  cases o with
  | some l =>
    obtain ⟨rfl, rfl⟩ := leads_pure.mp hrest
    have hexpect := leads_expect.mpr hnext
    obtain ⟨b₁, hthere, hfork₁⟩ := leads_expect_fork htail htail' rfl hexpect
      (openTo_of_expect rfl (by decide) hexpect hend) hfork
    exact ⟨b₁, leads_bind.mpr ⟨some l, b₁, leads_expect.mp hthere, rfl, rfl⟩, hfork₁⟩
  | none =>
    obtain ⟨o, a₃, hpiece, hrest⟩ := leads_bind.mp hrest
    cases o with
    | none => exact hrest.elim
    | some n =>
      obtain ⟨ns', a₄, hquoted, hlast⟩ := leads_bind.mp hrest
      obtain ⟨rfl, rfl⟩ := leads_pure.mp hlast
      obtain ⟨hparses, hcarried⟩ := leads_all.mp hquoted
      have hopen₃ : a₃.OpenTo tail := hparses.openTo_of_quoted hend
      have hopen₂ : a₂.OpenTo tail := by
        obtain ⟨ms, hms, _⟩ := leads_first?.mp hpiece
        exact hopen₃.of_suffix hms.1.suffix
      obtain ⟨b₂, hnext', hfork₂⟩ := leads_open htail htail' hnext hopen₂ hfork
      obtain ⟨b₃, hpiece', hfork₃⟩ := leads_open htail htail' hpiece hopen₃ hfork₂
      obtain ⟨b₄, hquoted', hfork₄⟩ := hcarried (.inr ⟨trivial, hend⟩) b₃ hfork₃
      refine ⟨b₄, leads_bind.mpr ⟨none, b₂, hnext', ?_⟩, hfork₄⟩
      refine leads_bind.mpr ⟨some n, b₃, hpiece', ?_⟩
      exact leads_bind.mpr ⟨ns', b₄, leads_all.mpr hquoted', rfl, rfl⟩

theorem list {closer : Closer} {ch : Char} (hspelling : closer.kind.spelling? = some [ch])
    (hch : ch ∈ closers) {ns : List Node}
    (h : (Production.list closer).body.LeadsBy (BeforeTail tail tail') c a ns a₁)
    (hend : tail <:+ a₁.rest) (hfork : a.Fork tail tail' b) :
    ∃ b₁, Leads c (Production.list closer).body b ns b₁ ∧ a₁.Fork tail tail' b₁ := by
  obtain ⟨es, a₂, hentries, hrest⟩ := leads_bind.mp h
  obtain ⟨l, a₃, hexpect, hlast⟩ := leads_bind.mp hrest
  obtain ⟨rfl, rfl⟩ := leads_pure.mp hlast
  have hopen := openTo_of_expect hspelling hch hexpect hend
  obtain ⟨b₂, hentries', hfork₂⟩ := leads_open htail htail' hentries hopen hfork
  obtain ⟨b₃, hexpect', hfork₃⟩ := leads_expect_fork htail htail' hspelling hexpect hopen hfork₂
  refine ⟨b₃, leads_bind.mpr ⟨es, b₂, hentries', ?_⟩, hfork₃⟩
  exact leads_bind.mpr ⟨l, b₃, hexpect', rfl, rfl⟩

theorem arithClosed {ns : List Node}
    (h : Production.arithClosed.body.LeadsBy (BeforeTail tail tail') c a ns a₁)
    (hend : tail <:+ a₁.rest) (hfork : a.Fork tail tail' b) :
    ∃ b₁, Leads c Production.arithClosed.body b ns b₁ ∧ a₁.Fork tail tail' b₁ := by
  obtain ⟨body, a₂, hbody, hrest⟩ := leads_bind.mp h
  obtain ⟨u, a₃, hclose, hlast⟩ := leads_bind.mp hrest
  obtain ⟨rfl, rfl⟩ := leads_pure.mp hlast
  have hanswer := leads_query.mp hclose
  have hopen := Scan.openTo_of_close (by decide) hanswer hend
  obtain ⟨b₂, hbody', hfork₂⟩ := leads_open htail htail' hbody hopen hfork
  obtain ⟨b₃, hclose', hfork₃⟩ := hfork₂.close hopen hanswer hend
  refine ⟨b₃, leads_bind.mpr ⟨body, b₂, hbody', ?_⟩, hfork₃⟩
  exact leads_bind.mpr ⟨u, b₃, leads_query.mpr hclose', rfl, rfl⟩

theorem braced {ns : List Node}
    (h : Production.braced.body.LeadsBy (BeforeTail tail tail') c a ns a₁)
    (hend : tail <:+ a₁.rest) (hfork : a.Fork tail tail' b) :
    ∃ b₁, Leads c Production.braced.body b ns b₁ ∧ a₁.Fork tail tail' b₁ := by
  obtain ⟨form, a₂, hform, hrest⟩ := leads_bind.mp h
  cases hblank : form.blankBeforeBrace with
  | true =>
    rw [hblank, if_pos rfl] at hrest
    obtain ⟨u, a₃, hclose, hlast⟩ := leads_bind.mp hrest
    obtain ⟨rfl, rfl⟩ := leads_pure.mp hlast
    have hanswer := leads_query.mp hclose
    have hopen := Scan.openTo_of_close (by decide) hanswer hend
    obtain ⟨b₂, hform', hfork₂⟩ := leads_open htail htail' hform hopen hfork
    obtain ⟨b₃, hclose', hfork₃⟩ := hfork₂.close hopen hanswer hend
    refine ⟨b₃, leads_bind.mpr ⟨form, b₂, hform', ?_⟩, hfork₃⟩
    rw [hblank, if_pos rfl]
    exact leads_bind.mpr ⟨u, b₃, leads_query.mpr hclose', rfl, rfl⟩
  | false =>
    rw [hblank, if_neg Bool.false_ne_true] at hrest
    obtain ⟨l, a₃, hexpect, hlast⟩ := leads_bind.mp hrest
    obtain ⟨rfl, rfl⟩ := leads_pure.mp hlast
    have hopen := openTo_of_expect rfl (by decide) hexpect hend
    obtain ⟨b₂, hform', hfork₂⟩ := leads_open htail htail' hform hopen hfork
    obtain ⟨b₃, hexpect', hfork₃⟩ := leads_expect_fork htail htail' rfl hexpect hopen hfork₂
    refine ⟨b₃, leads_bind.mpr ⟨form, b₂, hform', ?_⟩, hfork₃⟩
    rw [hblank, if_neg Bool.false_ne_true]
    exact leads_bind.mpr ⟨l, b₃, hexpect', rfl, rfl⟩

end Carried

section Fork
variable (htail : tail.isInert = true) (htail' : tail'.isInert = true)
include htail htail'

theorem carried {p : Production} {ns : List Node} (h : Parses c p a ns a₁) :
    Carried tail tail' c p a ns a₁ := by
  refine h.induct fun {c p a ns a₁} hbody => ?_
  intro hend b hfork
  have hthere : ∃ b₁, Leads c p.body b ns b₁ ∧ a₁.Fork tail tail' b₁ := by
    rcases hend with hopen | ⟨hclosing, hend⟩
    · exact leads_open htail htail' hbody hopen hfork
    · unfold Production.IsClosing at hclosing
      split at hclosing
      · exact Carried.quoted htail htail' hbody hend hfork
      · exact Carried.braced htail htail' hbody hend hfork
      · exact Carried.arithClosed htail htail' hbody hend hfork
      · exact Carried.list htail htail' rfl (by decide) hbody hend hfork
      · exact Carried.list htail htail' rfl (by decide) hbody hend hfork
      · exact hclosing.elim
  obtain ⟨b₁, hleads, hfork₁⟩ := hthere
  exact ⟨b₁, parses_iff.mpr hleads, hfork₁⟩

/-- With another tail behind the text a production reads the same, if a closer is ahead
where it ends. -/
theorem Parses.fork {p : Production} {ns : List Node} (h : Parses c p a ns a₁)
    (hopen : a₁.OpenTo tail) (hfork : a.Fork tail tail' b) :
    ∃ b₁, Parses c p b ns b₁ ∧ a₁.Fork tail tail' b₁ :=
  carried htail htail' h (.inl hopen) b hfork

/-- A production that ends with a closer in front of the tail reads the same whatever tail
there is. -/
theorem Parses.fork_of_closing {p : Production} {ns : List Node} (h : Parses c p a ns a₁)
    (hp : p.IsClosing) (hend : tail <:+ a₁.rest) (hfork : a.Fork tail tail' b) :
    ∃ b₁, Parses c p b ns b₁ ∧ a₁.Fork tail tail' b₁ :=
  carried htail htail' h (.inr ⟨hp, hend⟩) b hfork

end Fork

/-- A production that ends with a closer reads the same with a tail behind it. -/
theorem Parses.tail_of_closing (htail' : tail'.isInert = true) {p : Production} {ns : List Node}
    (h : Parses c p a ns a₁) (hp : p.IsClosing) (hahead : a.Ahead tail' b) :
    ∃ b₁, Parses c p b ns b₁ ∧ a₁.Ahead tail' b₁ := by
  obtain ⟨b₁, hthere, hfork⟩ := h.fork_of_closing rfl htail' hp List.nil_suffix hahead.fork
  exact ⟨b₁, hthere, hfork.ahead⟩

/-- Behind the token that a piece starts with, all that is called ends with a closer. -/
theorem Reader.within_pieceRest (l : Lexeme) :
    (Reader.pieceRest l).Within (fun _ _ => False) fun shift p => p.IsClosing ∧ shift ≠ .here := by
  unfold Reader.pieceRest
  split
  · exact within_pure
  · exact within_pure
  · exact within_pure
  · exact within_bind (within_all ⟨trivial, fun h => by cases h⟩) fun _ => within_pure
  · exact within_all ⟨trivial, fun h => by cases h⟩
  · exact within_all ⟨trivial, fun h => by cases h⟩
  · exact within_bind (within_one ⟨trivial, fun h => by cases h⟩) fun _ => within_pure
  · exact within_bind (within_one ⟨trivial, fun h => by cases h⟩) fun _ => within_pure
  · exact within_bind (within_one ⟨trivial, fun h => by cases h⟩) fun _ => within_pure
  · exact within_bind (within_one ⟨trivial, fun h => by cases h⟩) fun _ => within_pure
  · trivial

/-- What follows the token that a piece starts with is read the same in another context and
with a tail behind it. -/
theorem leads_pieceRest_tail {c' : Context} (htail' : tail'.isInert = true)
    (hback : c'.inBackquote = c.inBackquote) {l : Lexeme} {ns : List Node}
    (h : Leads c (Reader.pieceRest l) a ns a₁) (hahead : a.Ahead tail' b) :
    ∃ b₁, Leads c' (Reader.pieceRest l) b ns b₁ ∧ a₁.Ahead tail' b₁ := by
  have hcarries : Carries (fun _ _ => False) (fun shift p => p.IsClosing ∧ shift ≠ .here) Parses
      Parses c c' (Scan.Ahead tail') fun _ => True :=
    { ask := fun hno => hno.elim
      call := fun {shift _ _ _ _ _} hclosing hcall _ hrel => by
        have hshift : c'.shift shift = c.shift shift := by
          cases shift with
          | here => exact absurd rfl hclosing.2
          | under => simp only [Context.shift, Context.under, hback]
          | inside => rfl
        rw [hshift]
        exact hcall.tail_of_closing htail' hclosing.1 hrel
      asked := fun hno => hno.elim
      called := fun _ _ _ => trivial }
  exact (hcarries.leads (Reader.within_pieceRest l) h trivial).2 b hahead

end ShellGrammar
