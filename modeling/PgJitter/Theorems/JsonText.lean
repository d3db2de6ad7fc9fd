import PgJitter.Lemmas.JsonValue

/-!
# The JSON text reader accepts what the grammar derives

`jsonText_syntax` is about the syntax alone; `jsonText_unique_keys` adds what is asked of escapes and keys, and that everything
that was allocated is freed. Either way the run ends, and no byte behind the text is read.
-/

namespace PgJitter

open JsonGrammar JsonScanAux JsonStringAux JsonKeysAux JsonValueAux

/-- The verdict of a call, whatever its options. -/
theorem jsonText_verdict {o : PgTextOptions} (hready : o.Ready) (dat : List Byte) (hlen : o.len = dat.length) :
    ∃ res, yyjsonReadPgTextType o.depthLimit o.checkUniqueKeys o.validateUnicode o.allocOk dat = .ok res ∧
      Owns res.heap [] ∧ (res.type ≠ .invalid ↔ ∃ k, Text (jsonRules o) o.depthLimit k dat) ∧
      ∀ k, Text (jsonRules o) o.depthLimit k dat → res.type = ofKind k := by
  unfold yyjsonReadPgTextType
  have hofKind : ∀ k, ofKind k ≠ .invalid := by
    intro k
    cases k <;> exact nofun
  split
  · next hempty =>
    have hno : ∀ k, ¬ Text (jsonRules o) o.depthLimit k dat := by
      rintro k ⟨s₁, s₂, hw, hv, _⟩
      obtain ⟨c, s', rfl, _⟩ := hv.start
      have := hw.length_le
      rw [hempty] at this
      exact absurd this (Nat.not_succ_le_zero _)
    exact ⟨_, rfl, List.Perm.refl _, ⟨fun h => absurd rfl h, fun ⟨k, h⟩ => absurd h (hno k)⟩, fun k h => absurd h (hno k)⟩
  · have ho : (⟨o.depthLimit, o.checkUniqueKeys, o.validateUnicode, o.allocOk, dat.length⟩ : PgTextOptions) = o := by
      rw [← hlen]
    dsimp only
    rw [ho]
    have hle := skipJsonWs_length_le dat
    obtain ⟨type, r, hrun, hacc⟩ := (specs hready (3 * dat.length + 1)).1 { cur := skipJsonWs dat, err := none, heap := ⟨0, []⟩ } 0 []
      (by dsimp only; omega) (by dsimp only; omega) (List.Perm.refl _)
    rw [hrun, ok_bind]
    -- the text is the value that was read, between whitespace
    have hiff : ∀ k, Text (jsonRules o) o.depthLimit k dat ↔ type = some (ofKind k) ∧ skipJsonWs r.cur = [] := by
      intro k
      constructor
      · rintro ⟨s₁, s₂, hw, hv, hw'⟩
        obtain ⟨c, s', rfl, hc, _⟩ := hv.start
        rw [← (skipJsonWs_cons hc).2 hw] at hv
        obtain ⟨htype, rfl⟩ := hacc.complete k s₂ hv (numberEnd_of_ws hw' ends_nil)
        exact ⟨htype, skipJsonWs_eq hw' ends_nil⟩
      · rintro ⟨htype, hend⟩
        obtain ⟨k', hk', hv⟩ := hacc.sound _ htype
        obtain rfl : k = k' := by cases k <;> cases k' <;> first | rfl | exact nomatch hk'
        exact ⟨_, _, ws_of_skip rfl, hv, ws_of_skip hend⟩
    cases type with
    | none =>
      exact ⟨_, rfl, hacc.owns, ⟨fun h => absurd rfl h, fun ⟨k, h⟩ => nomatch ((hiff k).1 h).1⟩, fun k h => nomatch ((hiff k).1 h).1⟩
    | some t =>
      obtain ⟨k, rfl, _⟩ := hacc.sound t rfl
      dsimp only
      split
      · next hrest =>
        exact ⟨_, rfl, hacc.owns, ⟨fun h => absurd rfl h, fun ⟨k, h⟩ => absurd ((hiff k).1 h).2 hrest⟩,
          fun k h => absurd ((hiff k).1 h).2 hrest⟩
      · next hrest =>
        refine ⟨_, rfl, hacc.owns, ⟨fun _ => ⟨k, (hiff k).2 ⟨rfl, not_not.1 hrest⟩⟩, fun _ => hofKind k⟩, fun k' h => ?_⟩
        exact Option.some.inj ((hiff k').1 h).1

/-- With neither keys nor escapes checked, a text is accepted exactly if it is one value of the grammar between whitespace, nested
no deeper than the limit; the type is that of the value. -/
theorem jsonText_syntax (depthLimit : Nat) (allocOk : Nat → Bool) (dat : List Byte) :
    ∃ res, yyjsonReadPgTextType depthLimit false none allocOk dat = .ok res ∧
      (res.type ≠ .invalid ↔ ∃ k, Text Rules.syntaxOnly depthLimit k dat) ∧
      ∀ k, Text Rules.syntaxOnly depthLimit k dat → res.type = ofKind k := by
  have hrules : jsonRules ⟨depthLimit, false, none, allocOk, dat.length⟩ = Rules.syntaxOnly := by
    simp [jsonRules, Rules.syntaxOnly, PgTextOptions.Decoding]
  obtain ⟨res, hrun, _, hverdict⟩ := jsonText_verdict (o := ⟨depthLimit, false, none, allocOk, dat.length⟩) ⟨nofun, nofun⟩ dat rfl
  rw [hrules] at hverdict
  exact ⟨res, hrun, hverdict⟩

/-- With keys checked and no allocation failing, a text is accepted exactly if it is moreover one whose strings all decode, to code
points that the validator accepts, and whose objects have no key twice. However it ends, each block that was allocated is freed
once. A caller's length is an `int`; from `2 ^ 58` bytes on, the sizes of the key tables could overflow. -/
theorem jsonText_unique_keys (depthLimit : Nat) (validateUnicode : Option (Nat → Bool)) (allocOk : Nat → Bool) (dat : List Byte)
    (halloc : ∀ n, allocOk n = true) (hlen : dat.length < 2 ^ 58) :
    ∃ res, yyjsonReadPgTextType depthLimit true validateUnicode allocOk dat = .ok res ∧
      (res.type ≠ .invalid ↔
        ∃ k, Text (Rules.decoded fun u => ∀ validate, validateUnicode = some validate → validate u = true) depthLimit k dat) ∧
      res.heap.freed.Perm (List.range res.heap.next) := by
  have hrules : jsonRules ⟨depthLimit, true, validateUnicode, allocOk, dat.length⟩ =
      Rules.decoded fun u => ∀ validate, validateUnicode = some validate → validate u = true := by
    simp only [jsonRules, Rules.decoded, PgTextOptions.Decoding, true_or, forall_const]
    rfl
  obtain ⟨res, hrun, howns, hverdict, _⟩ := jsonText_verdict (o := ⟨depthLimit, true, validateUnicode, allocOk, dat.length⟩)
    ⟨fun _ => halloc, fun _ => hlen⟩ dat rfl
  rw [hrules] at hverdict
  refine ⟨res, hrun, hverdict, ?_⟩
  have hfreed : (res.heap.freed ++ []).Perm (List.range res.heap.next) := howns
  rwa [List.append_nil] at hfreed

namespace JsonTextWitness

/-- `{"a":1,"\u0061":2}` -/
def sameKeyTwice : List Byte :=
  [0x7b, 0x22, 0x61, 0x22, 0x3a, 0x31, 0x2c, 0x22, 0x5c, 0x75, 0x30, 0x30, 0x36, 0x31, 0x22, 0x3a, 0x32, 0x7d]

/-- An escaped name that decodes to a name before it: the text is rejected for its keys, and only for them. -/
theorem escaped_key_rejected :
    (yyjsonReadPgTextType 64 true (some fun _ => true) (fun _ => true) sameKeyTwice).map (·.type) = .ok .invalid ∧
      (yyjsonReadPgTextType 64 false none (fun _ => true) sameKeyTwice).map (·.type) = .ok .object ∧
      ∃ res, yyjsonReadPgTextType 64 true (some fun _ => true) (fun _ => true) sameKeyTwice = .ok res ∧
        (res.type ≠ .invalid ↔
          ∃ k, Text (Rules.decoded fun u => ∀ validate, (some fun _ => true) = some validate → validate u = true) 64 k sameKeyTwice) ∧
        res.heap.freed.Perm (List.range res.heap.next) :=
  ⟨by decide +kernel, by decide +kernel,
    jsonText_unique_keys 64 (some fun _ => true) (fun _ => true) sameKeyTwice (fun _ => rfl) (by decide)⟩

end JsonTextWitness

end PgJitter
