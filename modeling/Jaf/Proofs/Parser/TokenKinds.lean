import Jaf.Proofs.Parser.ParallelRuns

/-!
# Scripts as kinds of tokens

Up to places, what a script is parsed as depends on the kinds of its tokens only. A run of the parser over the
tokens without their places is in step with a run over a ribbon, which has nothing but the kinds, and whose
bound may be any number that is not smaller than that of the tokens (`Block.parse_kinds`).
-/

namespace Jaf

open Jaf.Parser

/-- The kinds of the tokens of a script, the end of file included. -/
def Lexeme.kinds (source : String) : Except BadText (List Token.Kind) :=
  (tokens source).map (List.map Token.kind)

/-- Tokens without places, from the kinds of those before the end of file. -/
def Token.ofKinds (ks : List Token.Kind) : List Token := ks.map (⟨·, .nowhere⟩) ++ [⟨.eof, .nowhere⟩]

/-- A stream whose tokens have no places. -/
def Stream.placeless (s : Stream (List Token)) : Stream (List Token) :=
  ⟨Relocation.nowhere.token s.current, s.feed.map Relocation.nowhere.token, .nowhere, s.typeNames⟩

theorem Token.next_placeless (ts : List Token) : Token.next (ts.map Relocation.nowhere.token) =
    (Relocation.nowhere.token (Token.next ts).1, (Token.next ts).2.map Relocation.nowhere.token) := by
  rcases ts with _ | ⟨t, _ | ⟨u, ts⟩⟩ <;> rfl

/-- Tokens are mirrored by the same tokens without places. -/
def Token.mirror : Mirror (List Token) (List Token) where
  toRelocation := .nowhere
  InStep ts us := us = ts.map Relocation.nowhere.token
  Current _ := True
  Bad _ := False
  left h := by rw [h]; exact (List.length_map _).symm
  next {ts us} h := by
    refine .inl ⟨(Token.next ts).1, (Token.next ts).2, (Token.next us).2, rfl, ?_, trivial, ?_⟩
    · show (Except.ok (Token.next us).1, _) = _
      rw [h, Token.next_placeless]
    · rw [h, Token.next_placeless]
  peek {ts us} h := by
    refine .inl ⟨(Token.next ts).1, ts, us, rfl, ?_, h⟩
    show (Except.ok (Token.next us).1, _) = _
    rw [h, Token.next_placeless]

/-- Without places, a script has the same tree without places. -/
theorem Parser.script_placeless (s : Stream (List Token)) :
    Token.mirror.Agree Block.placeless (script s) (script s.placeless) :=
  Mirror.mirrors_script s s.placeless ⟨rfl, trivial, rfl, rfl, rfl⟩

/-- The tokens without places are in step with their kinds. -/
def Ribbon.pacing : Pacing (List Token) Ribbon where
  InStep ended ts r := ended = false → .eof ∉ r.kinds ∧ ts = Token.ofKinds r.kinds ∧ r.kinds.length ≤ r.bound
  left {ts r} h := by
    obtain ⟨_, rfl, hbound⟩ := h rfl
    show 0 < (Token.ofKinds r.kinds).length ∧ (Token.ofKinds r.kinds).length ≤ r.bound + 1
    simp only [Token.ofKinds, List.length_append, List.length_map, List.length_singleton]
    omega
  next {ts r} h := by
    obtain ⟨heof, rfl, hbound⟩ := h rfl
    obtain ⟨kinds, bound⟩ := r
    cases kinds with
    | nil => exact .inl ⟨⟨.eof, .nowhere⟩, _, _, rfl, rfl, fun h => by simp at h, fun h => absurd rfl h⟩
    | cons k ks =>
        have hnext : Feed.next (Token.ofKinds (k :: ks)) = (.ok ⟨k, .nowhere⟩, Token.ofKinds ks) := by
          show (Except.ok (Token.next _).1, (Token.next _).2) = _
          rw [Token.ofKinds, List.map_cons, List.cons_append, Token.next_cons]
          rfl
        refine .inl ⟨⟨k, .nowhere⟩, Token.ofKinds ks, ⟨ks, bound⟩, hnext, rfl, fun _ => ⟨?_, rfl, ?_⟩, fun _ => ?_⟩
        · exact fun h => heof (List.mem_cons_of_mem _ h)
        · exact Nat.le_of_succ_le hbound
        · show (Token.ofKinds ks).length < (Token.ofKinds (k :: ks)).length
          simp [Token.ofKinds]
  peek {ts r} h := by
    obtain ⟨heof, rfl, hbound⟩ := h rfl
    obtain ⟨kinds, bound⟩ := r
    have hpeek : ∀ ks, (Token.next (Token.ofKinds ks)).1 = ⟨ks.headD .eof, .nowhere⟩ := by
      intro ks
      cases ks with
      | nil => rfl
      | cons k ks => rw [Token.ofKinds, List.map_cons, List.cons_append, Token.next_cons]; rfl
    refine .inl ⟨⟨kinds.headD .eof, .nowhere⟩, _, _, ?_, rfl, h, rfl, ?_⟩
    · show (Except.ok (Token.next _).1, _) = _
      rw [hpeek]
    · exact congrArg Except.ok (hpeek kinds)

/-- A stream at the first token, without places, is in step with the spot before all kinds. -/
theorem Ribbon.alike_start {us : List Token} {last : Token} {n : Nat} (hlast : last.kind = .eof)
    (heof : .eof ∉ us.map Token.kind) (hn : (us.map Token.kind).length ≤ n) :
    Ribbon.pacing.Alike
      (Stream.placeless ⟨(Token.next (us ++ [last])).1, (Token.next (us ++ [last])).2, .point 0, []⟩)
      (Spot.stream n ⟨[], us.map Token.kind⟩) := by
  cases us with
  | nil =>
      refine ⟨congrArg (Token.mk · .nowhere) hlast, fun h => ?_, rfl, rfl⟩
      exact absurd hlast (of_decide_eq_false h)
  | cons u us =>
      rw [List.cons_append, Token.next_cons]
      refine ⟨rfl, fun _ => ⟨fun h => heof (List.mem_cons_of_mem _ h), ?_, Nat.le_of_succ_le hn⟩, rfl, rfl⟩
      simp [Stream.placeless, Token.ofKinds, Relocation.token, Spot.stream, Relocation.nowhere, hlast]

/-- **Up to places, a script is what the parser makes of the kinds of its tokens.** -/
theorem Block.parse_kinds {source : String} {ks : List Token.Kind}
    (h : Lexeme.kinds source = .ok (ks ++ [.eof])) :
    .eof ∉ ks ∧ ∀ n, ks.length ≤ n → (Block.parse source).toOption.map Block.placeless =
      (script (Spot.stream n ⟨[], ks⟩)).toOption.map (·.1) := by
  cases hts : Lexeme.tokens source with
  | error bad => rw [Lexeme.kinds, hts] at h; cases h
  | ok ts =>
      obtain ⟨us, hscan, rfl⟩ := Lexeme.tokens_eq_ok hts
      have hks : us.map Token.kind = ks := by
        rw [Lexeme.kinds, hts] at h
        have hkinds : (us ++ [Lexeme.last source]).map Token.kind = ks ++ [.eof] := Except.ok.inj h
        rw [List.map_append] at hkinds
        exact (List.append_inj' hkinds rfl).1
      have heof : .eof ∉ ks := by
        rw [← hks]
        intro hmem
        obtain ⟨u, hu, hkind⟩ := List.mem_map.mp hmem
        have hscanned : .ok u ∈ Lexeme.scan source := hscan ▸ List.mem_map_of_mem hu
        exact Lexeme.scanFrom_ne_eof _ _ _ hscanned hkind
      refine ⟨heof, fun n hn => ?_⟩
      subst hks
      have hlast : (Lexeme.last source).kind = .eof := rfl
      have hagree := Pacing.keeps_script (P := Ribbon.pacing) _ _ (Ribbon.alike_start hlast heof hn) trivial
        (Nat.lt_succ_self _)
      have hrun : ∀ ts : List Token, script.run ts =
          (script ⟨(Token.next ts).1, (Token.next ts).2, .point 0, []⟩).map (·.1) := fun _ => rfl
      rw [Block.parse_eq_run hts, hrun]
      generalize (Stream.mk _ _ _ _ : Stream (List Token)) = s at hagree ⊢
      have hmirrored := script_placeless s
      generalize script s = r at hmirrored ⊢
      generalize script s.placeless = r' at hagree hmirrored
      generalize script (Spot.stream n _) = r'' at hagree ⊢
      cases hmirrored with
      | value _ => cases hagree; rfl
      | grammar _ => cases hagree; rfl
      | badText hbad => exact hbad.elim

end Jaf
