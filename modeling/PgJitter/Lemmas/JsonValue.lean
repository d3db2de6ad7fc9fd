import PgJitter.Lemmas.JsonKeys

/-!
# Values of the JSON text reader

What each parser accepts is what the grammar derives, and what it leaves is what the grammar leaves. The induction is on the fuel;
three of it for each byte are enough, for between two reads of a byte no more than three calls are made.
-/

namespace PgJitter

open JsonGrammar

/-- The type of a kind of values. -/
def ofKind : Kind → PgTextType
  | .object => .object
  | .array => .array
  | .scalar => .scalar

namespace JsonValueAux

open JsonScanAux JsonStringAux JsonKeysAux

@[simp] theorem skipWs_cur (r : PgReader) : r.skipWs.cur = skipJsonWs r.cur := rfl

@[simp] theorem skipWs_heap (r : PgReader) : r.skipWs.heap = r.heap := rfl

@[simp] theorem advance_cur (r : PgReader) : r.advance.cur = r.cur.tail := rfl

@[simp] theorem advance_heap (r : PgReader) : r.advance.heap = r.heap := rfl

/-! ## The grammar as the parsers walk it -/

/-- A number ends where whitespace and then a separator come. -/
theorem numberEnd_of_ws {s t : List Byte} (h : Ws s t) (ht : NumberEnd t) : NumberEnd s := by
  cases h with
  | nil => exact ht
  | cons hc _ =>
    refine ends_cons ?_
    rcases hc with rfl | rfl | rfl | rfl <;> unfold IsDigit <;> decide

theorem numberEnd_of_skip {s t : List Byte} {c : Byte} (h : skipJsonWs s = c :: t) (hc : c = 0x2c ∨ c = 0x5d ∨ c = 0x7d) :
    NumberEnd s := by
  refine numberEnd_of_ws (skipJsonWs_spec s).1 ?_
  rw [h]
  refine ends_cons ?_
  rcases hc with rfl | rfl | rfl <;> unfold IsDigit <;> decide

theorem ws_of_skip {s t : List Byte} (h : skipJsonWs s = t) : Ws s t := h ▸ (skipJsonWs_spec s).1

theorem not_ws_of_sep {c : Byte} (hc : c = 0x2c ∨ c = 0x3a ∨ c = 0x5d ∨ c = 0x7d ∨ c = 0x22) : ¬ IsWs c := by
  rcases hc with rfl | rfl | rfl | rfl | rfl <;> unfold IsWs <;> decide

section Grammar

variable {R : Rules} {d : Nat} {s u : List Byte}

/-- The elements of an array, one value and what follows it. -/
theorem elements_iff : Elements R d s u ↔ ∃ k s₁, Value R d k s s₁ ∧
    (skipJsonWs s₁ = 0x5d :: u ∨ ∃ s₂, skipJsonWs s₁ = 0x2c :: s₂ ∧ Elements R d (skipJsonWs s₂) u) := by
  constructor
  · intro h
    cases h with
    | last hv hw => exact ⟨_, _, hv, Or.inl ((skipJsonWs_cons (not_ws_of_sep (by decide))).2 hw)⟩
    | more hv hw hw' he =>
      refine ⟨_, _, hv, Or.inr ⟨_, (skipJsonWs_cons (not_ws_of_sep (by decide))).2 hw, ?_⟩⟩
      obtain ⟨c, s', rfl, hc, _⟩ := he.start
      rwa [(skipJsonWs_cons hc).2 hw']
  · rintro ⟨k, s₁, hv, h | ⟨s₂, h, he⟩⟩
    · exact .last hv (ws_of_skip h)
    · exact .more hv (ws_of_skip h) (ws_of_skip rfl) he

/-- The members of an object, one member and what follows it. -/
theorem members_iff {names : List (List StrItem)} : Members R d names s u ↔ ∃ is s₀ s₁ s₂ k s₃,
    s = 0x22 :: s₀ ∧ Str is s₀ s₁ ∧ R.str is ∧ skipJsonWs s₁ = 0x3a :: s₂ ∧ Value R d k (skipJsonWs s₂) s₃ ∧
      (skipJsonWs s₃ = 0x7d :: u ∧ names = [is] ∨
        ∃ s₄ names', skipJsonWs s₃ = 0x2c :: s₄ ∧ names = is :: names' ∧ Members R d names' (skipJsonWs s₄) u) := by
  constructor
  · intro h
    cases h with
    | last hs hok hw hw' hv hw'' =>
      obtain ⟨c, s', rfl, hc, _⟩ := hv.start
      refine ⟨_, _, _, _, _, _, rfl, hs, hok, (skipJsonWs_cons (not_ws_of_sep (by decide))).2 hw,
        (skipJsonWs_cons hc).2 hw' ▸ hv, Or.inl ⟨(skipJsonWs_cons (not_ws_of_sep (by decide))).2 hw'', rfl⟩⟩
    | more hs hok hw hw' hv hw₁ hw₂ hm =>
      obtain ⟨c, s', rfl, hc, _⟩ := hv.start
      obtain ⟨s'', rfl⟩ := hm.start
      refine ⟨_, _, _, _, _, _, rfl, hs, hok, (skipJsonWs_cons (not_ws_of_sep (by decide))).2 hw,
        (skipJsonWs_cons hc).2 hw' ▸ hv, Or.inr ⟨_, _, (skipJsonWs_cons (not_ws_of_sep (by decide))).2 hw₁, rfl, ?_⟩⟩
      rwa [(skipJsonWs_cons (not_ws_of_sep (by decide))).2 hw₂]
  · rintro ⟨is, s₀, s₁, s₂, k, s₃, rfl, hs, hok, hcolon, hv, ⟨h, rfl⟩ | ⟨s₄, names', h, rfl, hm⟩⟩
    · exact .last hs hok (ws_of_skip hcolon) (ws_of_skip rfl) hv (ws_of_skip h)
    · exact .more hs hok (ws_of_skip hcolon) (ws_of_skip rfl) hv (ws_of_skip h) (ws_of_skip rfl) hm

end Grammar

/-! ## What a parser gives -/

/-- What is accepted is as the production `G` says, and when something is as it says up to an end `E`, it is accepted. -/
structure Accepts (G E : List Byte → Prop) (owned : List Nat) (ok : Bool) (r : PgReader) : Prop where
  owns : Owns r.heap owned
  sound : ok = true → G r.cur
  complete : ∀ u, G u → E u → ok = true ∧ r.cur = u

theorem Accepts.refuse {G E : List Byte → Prop} {owned : List Nat} {r : PgReader} (howns : Owns r.heap owned)
    (h : ∀ u, G u → E u → False) : Accepts G E owned false r :=
  ⟨howns, nofun, fun u hG hE => (h u hG hE).elim⟩

/-- The same of a value and its type. -/
structure AcceptsValue (R : Rules) (d : Nat) (cur : List Byte) (owned : List Nat) (type : Option PgTextType) (r : PgReader) : Prop where
  owns : Owns r.heap owned
  sound : ∀ t, type = some t → ∃ k, t = ofKind k ∧ Value R d k cur r.cur
  complete : ∀ k u, Value R d k cur u → NumberEnd u → type = some (ofKind k) ∧ r.cur = u

/-- The first byte of a value says which production it is. -/
theorem AcceptsValue.of_production {R : Rules} {d : Nat} {cur : List Byte} {owned : List Nat} {ok : Bool} {r : PgReader}
    {G E : List Byte → Prop} (h : Accepts G E owned ok r) (K : Kind) (hG : ∀ k u, Value R d k cur u ↔ k = K ∧ G u)
    (hE : ∀ u, NumberEnd u → E u) : AcceptsValue R d cur owned (if ok = true then some (ofKind K) else none) r where
  owns := h.owns
  sound := by
    intro t ht
    split at ht
    · next hok =>
      cases ht
      exact ⟨K, rfl, (hG K r.cur).2 ⟨rfl, h.sound hok⟩⟩
    · exact nomatch ht
  complete := by
    intro k u hv hu
    obtain ⟨rfl, hu'⟩ := (hG k u).1 hv
    obtain ⟨hok, hcur⟩ := h.complete u hu' (hE u hu)
    exact ⟨if_pos hok, hcur⟩

/-! ## Arrays -/

/-- Any end. -/
abbrev AnyEnd : List Byte → Prop := fun _ => True

/-- With enough fuel a value is read as the grammar has it. -/
def ValueSpec (o : PgTextOptions) (n : Nat) : Prop :=
  ∀ (r : PgReader) (depth : Nat) (owned : List Nat), 3 * r.cur.length + 1 ≤ n → r.cur.length ≤ o.len → Owns r.heap owned →
    ∃ type r', parseValue o n r depth = .ok (type, r') ∧
      AcceptsValue (jsonRules o) (o.depthLimit - depth) r.cur owned type r'

/-- What comes behind the opening bracket of an array. -/
def ArrayRest (o : PgTextOptions) (d : Nat) (s u : List Byte) : Prop :=
  ∃ d', d = d' + 1 ∧ (skipJsonWs s = 0x5d :: u ∨ Elements (jsonRules o) d' (skipJsonWs s) u)

def ArraySpec (o : PgTextOptions) (n : Nat) : Prop :=
  ∀ (r : PgReader) (depth : Nat) (owned : List Nat) (s : List Byte), r.cur = 0x5b :: s → 3 * (s.length + 1) ≤ n → s.length < o.len →
    Owns r.heap owned →
    ∃ ok r', parseArray o n r depth = .ok (ok, r') ∧ Accepts (ArrayRest o (o.depthLimit - depth) s) AnyEnd owned ok r'

def ArrayLoopSpec (o : PgTextOptions) (n : Nat) : Prop :=
  ∀ (r : PgReader) (depth : Nat) (owned : List Nat), 3 * r.cur.length + 2 ≤ n → r.cur.length ≤ o.len → Owns r.heap owned →
    ∃ ok r', arrayLoop o n r depth = .ok (ok, r') ∧
      Accepts (Elements (jsonRules o) (o.depthLimit - (depth + 1)) r.cur) AnyEnd owned ok r'

section Arrays

variable {o : PgTextOptions} {n : Nat}

/-- Behind a comma, what is left of the elements or members starts at the next byte that is no whitespace. -/
theorem rest_after_comma {c : Prop} {close : Byte} {P : List Byte → Prop} {Q : List Byte → List Byte → Prop} {r : PgReader}
    {s : List Byte} (hcur : r.cur = 0x2c :: s) (hclose : close ≠ 0x2c) (hc : c)
    (hiff : ∀ u, P u ↔ c ∧ (r.cur = close :: u ∨ ∃ s', r.cur = 0x2c :: s' ∧ Q (skipJsonWs s') u)) :
    (∀ u, P u ↔ Q r.advance.skipWs.cur u) ∧ r.advance.skipWs.cur.length ≤ s.length := by
  have hskip : r.advance.skipWs.cur = skipJsonWs s := by rw [skipWs_cur, advance_cur, hcur, List.tail_cons]
  refine ⟨fun u => ?_, by rw [hskip]; exact skipJsonWs_length_le s⟩
  rw [hiff, hcur, hskip]
  constructor
  · rintro ⟨_, h | ⟨s', h, hq⟩⟩
    · exact absurd (List.cons.inj h).1.symm hclose
    · cases h
      exact hq
  · exact fun hq => ⟨hc, Or.inr ⟨s, rfl, hq⟩⟩

/-- One turn of the loop over the elements: a value, and behind it a comma, with the rest of the loop, or the closing bracket.
Every other byte, and a value that is refused, refuses the array. -/
theorem arrayLoop_spec (hvalue : ValueSpec o n) (hloop : ArrayLoopSpec o n) : ArrayLoopSpec o (n + 1) := by
  intro r depth owned hfuel hlen howns
  obtain ⟨type, r₁, hval, hacc⟩ := hvalue r (depth + 1) owned (by omega) hlen howns
  rw [arrayLoop, hval, ok_bind]
  dsimp only
  -- the value, if there is one, is the one that was read
  have hiff : ∀ u, Elements (jsonRules o) (o.depthLimit - (depth + 1)) r.cur u ↔ type.isSome = true ∧
      (skipJsonWs r₁.cur = 0x5d :: u ∨
        ∃ s, skipJsonWs r₁.cur = 0x2c :: s ∧ Elements (jsonRules o) (o.depthLimit - (depth + 1)) (skipJsonWs s) u) := by
    intro u
    rw [elements_iff]
    constructor
    · rintro ⟨k, s₁, hv, h⟩
      have hend : NumberEnd s₁ := by
        rcases h with h | ⟨s, h, _⟩
        · exact numberEnd_of_skip h (by decide)
        · exact numberEnd_of_skip h (by decide)
      obtain ⟨rfl, rfl⟩ := hacc.complete k s₁ hv hend
      exact ⟨rfl, h⟩
    · rintro ⟨hsome, h⟩
      obtain ⟨t, ht⟩ := Option.isSome_iff_exists.1 hsome
      obtain ⟨k, _, hv⟩ := hacc.sound t ht
      exact ⟨k, r₁.cur, hv, h⟩
  cases type with
  | none => exact ⟨_, _, rfl, .refuse hacc.owns fun u h _ => absurd ((hiff u).1 h).1 Bool.false_ne_true⟩
  | some t =>
    obtain ⟨k, _, hv⟩ := hacc.sound t rfl
    have hlt := hv.length_lt
    have hle := skipJsonWs_length_le r₁.cur
    rw [if_neg (by simp)]
    rw [← skipWs_cur] at hiff hle
    have howns₂ : Owns r₁.skipWs.heap owned := hacc.owns
    generalize r₁.skipWs = r₂ at hiff hle howns₂ ⊢
    cases hcur : r₂.cur with
    | nil =>
      rw [if_pos rfl]
      refine ⟨_, _, rfl, .refuse howns₂ fun u h _ => ?_⟩
      rcases ((hiff u).1 h).2 with h | ⟨s, h, _⟩
      · cases hcur.symm.trans h
      · cases hcur.symm.trans h
    | cons c s =>
      rw [hcur, List.length_cons] at hle
      rw [if_neg (List.cons_ne_nil _ _), deref_bind]
      split
      · next hc =>
        subst hc
        refine ⟨_, _, rfl, howns₂, fun _ => (hiff _).2 ⟨rfl, Or.inl ?_⟩, fun u h _ => ⟨rfl, ?_⟩⟩
        · rw [advance_cur, hcur]
          rfl
        · rcases ((hiff u).1 h).2 with h | ⟨s', h, _⟩
          · rw [advance_cur, h]
            rfl
          · cases hcur.symm.trans h
      · next hc =>
        split
        · next hc' =>
          refine ⟨_, _, rfl, .refuse howns₂ fun u h _ => ?_⟩
          rcases ((hiff u).1 h).2 with h | ⟨s', h, _⟩
          · cases hcur.symm.trans h
            exact hc rfl
          · cases hcur.symm.trans h
            exact hc' rfl
        · next hc' =>
          obtain rfl := not_not.1 hc'
          obtain ⟨hiff', hle'⟩ := rest_after_comma hcur (by decide) rfl hiff
          have howns₃ : Owns r₂.advance.skipWs.heap owned := howns₂
          generalize r₂.advance.skipWs = r₃ at hiff' hle' howns₃ ⊢
          cases hcur₃ : r₃.cur with
          | nil =>
            rw [if_pos rfl]
            refine ⟨_, _, rfl, .refuse howns₃ fun u h _ => ?_⟩
            obtain ⟨_, _, heq, _⟩ := ((hiff' u).1 h).start
            cases hcur₃.symm.trans heq
          | cons c' s' =>
            rw [if_neg (List.cons_ne_nil _ _), deref_bind]
            split
            · next hc' =>
              refine ⟨_, _, rfl, .refuse howns₃ fun u h _ => ?_⟩
              obtain ⟨_, _, heq, _, hne⟩ := ((hiff' u).1 h).start
              cases hcur₃.symm.trans heq
              exact hne hc'
            · obtain ⟨ok, r', hrun, hacc'⟩ := hloop r₃ depth owned (by omega) (by omega) howns₃
              exact ⟨ok, r', hrun, hacc'.owns, fun hok => (hiff' _).2 (hacc'.sound hok),
                fun u h _ => hacc'.complete u ((hiff' u).1 h) trivial⟩

/-- An array is empty, or the loop reads its elements; a level that is too deep is refused before. -/
theorem parseArray_spec (hloop : ArrayLoopSpec o n) : ArraySpec o (n + 1) := by
  intro r depth owned s hcur hfuel hlen howns
  rw [parseArray]
  split
  · next hdepth =>
    refine ⟨_, _, rfl, .refuse (by rw [setError_heap]; exact howns) ?_⟩
    rintro u ⟨d', hd, _⟩ _
    omega
  · next hdepth =>
    have hd : o.depthLimit - depth = o.depthLimit - (depth + 1) + 1 := by omega
    have hcur' : r.advance.skipWs.cur = skipJsonWs s := by rw [skipWs_cur, advance_cur, hcur, List.tail_cons]
    have howns' : Owns r.advance.skipWs.heap owned := howns
    have hle := skipJsonWs_length_le s
    generalize r.advance.skipWs = r₁ at hcur' howns' ⊢
    dsimp only
    -- without a closing bracket elements follow
    have helements : (∀ u, skipJsonWs s ≠ 0x5d :: u) → ∃ ok r', arrayLoop o n r₁ depth = .ok (ok, r') ∧
        Accepts (ArrayRest o (o.depthLimit - depth) s) AnyEnd owned ok r' := by
      intro hne
      obtain ⟨ok, r', hrun, hacc⟩ := hloop r₁ depth owned (by rw [hcur']; omega) (by rw [hcur']; omega) howns'
      rw [hcur'] at hacc
      refine ⟨ok, r', hrun, hacc.owns, fun hok => ⟨_, hd, Or.inr (hacc.sound hok)⟩, ?_⟩
      rintro u ⟨d', hd', h | h⟩ _
      · exact absurd h (hne u)
      · obtain rfl : d' = o.depthLimit - (depth + 1) := by omega
        exact hacc.complete u h trivial
    cases hr : r₁.cur with
    | nil =>
      rw [if_pos rfl]
      refine helements fun u h => ?_
      cases (hcur'.symm.trans hr).symm.trans h
    | cons c t =>
      rw [if_neg (List.cons_ne_nil _ _), deref_bind]
      have hskip : skipJsonWs s = c :: t := hcur'.symm.trans hr
      split
      · next hc =>
        subst hc
        have hadv : r₁.advance.cur = t := by rw [advance_cur, hr, List.tail_cons]
        refine ⟨_, _, rfl, howns', fun _ => ⟨_, hd, Or.inl (by rw [hadv, hskip])⟩, ?_⟩
        rintro u ⟨d', hd', h | h⟩ _
        · cases hskip.symm.trans h
          exact ⟨rfl, hadv⟩
        · obtain ⟨_, _, heq, _, hne⟩ := h.start
          cases hskip.symm.trans heq
          exact absurd rfl hne
      · next hc =>
        refine helements fun u h => hc ?_
        cases hskip.symm.trans h
        rfl

end Arrays

/-! ## Objects -/

/-- The names decode to keys that are distinct and not among those before. -/
def NamesNew (o : PgTextOptions) (ks : List (List Byte)) (names : List (List StrItem)) : Prop :=
  o.checkUniqueKeys = true → ∃ keys, List.Forall₂ (Decodes o.UnicodeOk) names keys ∧ (ks ++ keys).Nodup

/-- The members of an object behind members with the keys `ks`. -/
def MembersFrom (o : PgTextOptions) (d : Nat) (ks : List (List Byte)) (s u : List Byte) : Prop :=
  ∃ names, Members (jsonRules o) d names s u ∧ NamesNew o ks names

/-- The keys after a name was read, which is new where keys are checked. -/
def KeyAdded (o : PgTextOptions) (ks : List (List Byte)) (is : List StrItem) (ks' : List (List Byte)) : Prop :=
  if o.checkUniqueKeys = true then ∃ bs, Decodes o.UnicodeOk is bs ∧ bs ∉ ks ∧ ks' = ks ++ [bs] else ks' = ks

section Names

variable {o : PgTextOptions} {ks ks' : List (List Byte)} {is : List StrItem} {names : List (List StrItem)}

theorem namesNew_nil (h : ks.Nodup) : NamesNew o ks [] := fun _ => ⟨[], .nil, by rwa [List.append_nil]⟩

/-- A name is new and the others are new after it when all of them are new. -/
theorem KeyAdded.namesNew (h : KeyAdded o ks is ks') : NamesNew o ks (is :: names) ↔ NamesNew o ks' names := by
  unfold KeyAdded at h
  split at h
  · obtain ⟨bs, hbs, _, rfl⟩ := h
    refine ⟨fun hn hc => ?_, fun hn hc => ?_⟩
    · obtain ⟨keys, hkeys, hnodup⟩ := hn hc
      cases hkeys with
      | cons hd hkeys =>
        cases hd.unique hbs
        exact ⟨_, hkeys, by rwa [List.append_assoc]⟩
    · obtain ⟨keys, hkeys, hnodup⟩ := hn hc
      exact ⟨bs :: keys, .cons hbs hkeys, by rwa [List.append_assoc] at hnodup⟩
  · next hc => exact ⟨fun _ hc' => absurd hc' hc, fun _ hc' => absurd hc' hc⟩

/-- A name that was read before stands in no object. -/
theorem not_namesNew {bs : List Byte} (hc : o.checkUniqueKeys = true) (hbs : Decodes o.UnicodeOk is bs) (hmem : bs ∈ ks) :
    ¬ NamesNew o ks (is :: names) := by
  intro hn
  obtain ⟨keys, hkeys, hnodup⟩ := hn hc
  cases hkeys with
  | cons hd _ =>
    cases hd.unique hbs
    exact (List.nodup_append.1 hnodup).2.2 bs hmem bs List.mem_cons_self rfl

end Names

/-- What reading a name and the colon behind it gives: the reader at the value, and a list with the key, or none when there is no
such name or it is not new. -/
structure ReadsKey (o : PgTextOptions) (ks : List (List Byte)) (rest : List Nat) (cur : List Byte) (ok : Bool) (r : PgReader)
    (keys : PgKeyList) : Prop where
  owns : Owns r.heap (keysBlocks keys ++ rest)
  sound : ok = true → ∃ is s₀ s₁ s₂ ks', cur = 0x22 :: s₀ ∧ Str is s₀ s₁ ∧ (jsonRules o).str is ∧ skipJsonWs s₁ = 0x3a :: s₂ ∧
    r.cur = skipJsonWs s₂ ∧ KeyAdded o ks is ks' ∧ KeysInv keys ks'
  complete : ok = false → ∀ is s₀ s₁ s₂ names, cur = 0x22 :: s₀ → Str is s₀ s₁ → (jsonRules o).str is →
    skipJsonWs s₁ = 0x3a :: s₂ → ¬ NamesNew o ks (is :: names)

section Objects

variable {o : PgTextOptions} {n : Nat}

/-- Behind a name the colon is looked for. -/
theorem colon_reads {r : PgReader} {keys : PgKeyList} {ks ks' : List (List Byte)} {rest : List Nat} {cur s₀ : List Byte}
    {is : List StrItem} (howns : Owns r.heap (keysBlocks keys ++ rest)) (hinv : KeysInv keys ks') (hcur : cur = 0x22 :: s₀)
    (hstr : Str is s₀ r.cur) (hok : (jsonRules o).str is) (hadd : KeyAdded o ks is ks') :
    ∃ ok r' keys', (if r.skipWs.cur = [] then .ok (false, r.skipWs, keys)
        else do
          if (← deref r.skipWs.cur) ≠ 0x3a then return (false, r.skipWs, keys)
          else return (true, r.skipWs.advance.skipWs, keys) : Except PgTextHalt (Bool × PgReader × PgKeyList)) =
        .ok (ok, r', keys') ∧ ReadsKey o ks rest cur ok r' keys' := by
  have hskip : r.skipWs.cur = skipJsonWs r.cur := rfl
  have howns' : Owns r.skipWs.heap (keysBlocks keys ++ rest) := howns
  -- the name is the one that was read
  have hno : (∀ s₂, skipJsonWs r.cur ≠ 0x3a :: s₂) → ∀ is s₀ s₁ s₂ names, cur = 0x22 :: s₀ → Str is s₀ s₁ → (jsonRules o).str is →
      skipJsonWs s₁ = 0x3a :: s₂ → ¬ NamesNew o ks (is :: names) := by
    rintro hne is' s₀' s₁ s₂ names hcur' hstr' _ hcolon
    cases hcur.symm.trans hcur'
    obtain ⟨_, rfl⟩ := hstr.unique hstr'
    exact absurd hcolon (hne s₂)
  generalize r.skipWs = r₁ at hskip howns' ⊢
  cases hr : r₁.cur with
  | nil => exact ⟨_, _, _, if_pos rfl, howns', nofun, fun _ => hno fun s h => nomatch (hskip.symm.trans hr).symm.trans h⟩
  | cons c s =>
    rw [if_neg (List.cons_ne_nil _ _), deref_bind]
    have hcons : skipJsonWs r.cur = c :: s := hskip.symm.trans hr
    split
    · next hc =>
      refine ⟨_, _, _, rfl, howns', nofun, fun _ => hno fun s h => hc ?_⟩
      cases hcons.symm.trans h
      rfl
    · next hc =>
      obtain rfl := not_not.1 hc
      refine ⟨_, _, _, rfl, howns', fun _ => ?_, nofun⟩
      refine ⟨is, s₀, r.cur, s, ks', hcur, hstr, hok, hcons, ?_, hadd, hinv⟩
      rw [skipWs_cur, advance_cur, hr, List.tail_cons]

/-- A member up to its colon: the key is read as a string, and with unique keys it is refused when it is in the list. -/
theorem parseKey_spec (hready : o.Ready) {r : PgReader} {keys : PgKeyList} {ks : List (List Byte)} {rest : List Nat}
    (hinv : KeysInv keys ks) (howns : Owns r.heap (keysBlocks keys ++ rest)) (hlen : ks.length + r.cur.length ≤ o.len) :
    ∃ ok r' keys', parseKey o r keys = .ok (ok, r', keys') ∧ ReadsKey o ks rest r.cur ok r' keys' := by
  obtain ⟨res, r₁, hparse, hreads⟩ := parseString_spec hready (by omega) howns
  rw [parseKey, hparse, ok_bind]
  cases res with
  | none =>
    refine ⟨_, _, _, rfl, hreads.owns, nofun, ?_⟩
    intro _ is s₀ s₁ s₂ names hcur hstr hok _
    exact nomatch hreads.complete is s₀ s₁ hcur hstr hok
  | some buf =>
    obtain ⟨is, s₀, hcur, hstr, hdec⟩ := hreads.sound buf rfl
    have hok : (jsonRules o).str is := fun hd => (hdec hd).imp fun bs h => h.1
    have hshort := hstr.length_lt
    rw [hcur, List.length_cons] at hlen
    dsimp only
    by_cases hc : o.checkUniqueKeys = true
    · obtain ⟨bs, hbs, hbytes⟩ := hdec (Or.inl hc)
      have hfits := hready.fits hc
      have hat : KeysAt ks (buf.ptr.toList ++ rest) r₁.cur r₁ keys := by
        refine ⟨hinv, owns_perm ?_ hreads.owns, rfl⟩
        exact List.perm_iff_count.2 fun a => by
          simp only [Option.bind_some, List.count_append]
          omega
      obtain ⟨r₂, keys₂, hadd⟩ := keysAddUnique_spec (hready.alloc hc) ⟨buf.ptr, buf.bytes⟩ hat (by omega)
      rw [if_pos hc]
      rcases hadd with ⟨hmem, hrun, hat₂⟩ | ⟨hmem, hrun, hat₂⟩
      · rw [hrun, ok_bind]
        refine ⟨_, _, _, rfl, owns_free (owns_perm ?_ hat₂.owns), nofun, ?_⟩
        · exact List.perm_iff_count.2 fun a => by simp only [List.count_append]; omega
        · intro _ is' s₀' s₁ s₂ names hcur' hstr' _ _
          cases hcur.symm.trans hcur'
          obtain ⟨rfl, _⟩ := hstr.unique hstr'
          exact not_namesNew hc hbs (hbytes hc ▸ hmem)
      · rw [hrun, ok_bind]
        refine colon_reads hat₂.owns hat₂.inv hcur (hat₂.cur ▸ hstr) hok ?_
        unfold KeyAdded
        rw [if_pos hc]
        exact ⟨bs, hbs, hbytes hc ▸ hmem, by rw [← hbytes hc]⟩
    · rw [if_neg hc, ok_bind]
      have hptr : buf.ptr = none := hreads.plain hc
      refine colon_reads ?_ hinv hcur hstr hok ?_
      · have howns₁ := hreads.owns
        rwa [Option.bind_some, hptr] at howns₁
      · unfold KeyAdded
        rw [if_neg hc]

/-- A member adds at most one key. -/
theorem KeyAdded.length_le {ks ks' : List (List Byte)} {is : List StrItem} (h : KeyAdded o ks is ks') :
    ks'.length ≤ ks.length + 1 := by
  unfold KeyAdded at h
  split at h
  · obtain ⟨_, _, _, rfl⟩ := h
    rw [List.length_append, List.length_singleton]
  · rw [h]
    exact Nat.le_succ _

/-- The members of an object behind a name and a value that were read. -/
theorem membersFrom_iff {d : Nat} {ks ks' : List (List Byte)} {cur cur₁ s₀ s₁ s₂ u : List Byte} {is : List StrItem}
    {owned : List Nat} {type : Option PgTextType} {r : PgReader} (hcur : cur = 0x22 :: s₀) (hstr : Str is s₀ s₁)
    (hok : (jsonRules o).str is) (hcolon : skipJsonWs s₁ = 0x3a :: s₂) (hcur₁ : cur₁ = skipJsonWs s₂) (hadd : KeyAdded o ks is ks')
    (hnodup : ks'.Nodup) (hacc : AcceptsValue (jsonRules o) d cur₁ owned type r) :
    MembersFrom o d ks cur u ↔ type.isSome = true ∧
      (skipJsonWs r.cur = 0x7d :: u ∨ ∃ s, skipJsonWs r.cur = 0x2c :: s ∧ MembersFrom o d ks' (skipJsonWs s) u) := by
  constructor
  · rintro ⟨names, hm, hnew⟩
    obtain ⟨is', s₀', s₁', s₂', k, s₃, hcur', hstr', _, hcolon', hv, hrest⟩ := members_iff.1 hm
    cases hcur.symm.trans hcur'
    obtain ⟨rfl, rfl⟩ := hstr.unique hstr'
    cases hcolon.symm.trans hcolon'
    rw [← hcur₁] at hv
    have hend : NumberEnd s₃ := by
      rcases hrest with ⟨h, _⟩ | ⟨s, _, h, _⟩
      · exact numberEnd_of_skip h (by decide)
      · exact numberEnd_of_skip h (by decide)
    obtain ⟨rfl, rfl⟩ := hacc.complete k s₃ hv hend
    refine ⟨rfl, ?_⟩
    rcases hrest with ⟨h, rfl⟩ | ⟨s, names', h, rfl, hm'⟩
    · exact Or.inl h
    · exact Or.inr ⟨s, h, names', hm', hadd.namesNew.1 hnew⟩
  · rintro ⟨hsome, hrest⟩
    obtain ⟨t, ht⟩ := Option.isSome_iff_exists.1 hsome
    obtain ⟨k, _, hv⟩ := hacc.sound t ht
    rw [hcur₁] at hv
    rcases hrest with h | ⟨s, h, names, hm, hnew⟩
    · exact ⟨[is], members_iff.2 ⟨is, s₀, s₁, s₂, k, r.cur, hcur, hstr, hok, hcolon, hv, Or.inl ⟨h, rfl⟩⟩,
        hadd.namesNew.2 (namesNew_nil hnodup)⟩
    · exact ⟨is :: names, members_iff.2 ⟨is, s₀, s₁, s₂, k, r.cur, hcur, hstr, hok, hcolon, hv, Or.inr ⟨s, names, h, rfl, hm⟩⟩,
        hadd.namesNew.2 hnew⟩

theorem MembersFrom.start {d : Nat} {ks : List (List Byte)} {s u : List Byte} (h : MembersFrom o d ks s u) : ∃ s', s = 0x22 :: s' := by
  obtain ⟨_, hm, _⟩ := h
  exact hm.start

def ObjectLoopSpec (o : PgTextOptions) (n : Nat) : Prop :=
  ∀ (r : PgReader) (depth : Nat) (keys : PgKeyList) (ks : List (List Byte)) (owned : List Nat), 3 * r.cur.length + 2 ≤ n →
    ks.length + r.cur.length ≤ o.len → KeysInv keys ks → Owns r.heap (keysBlocks keys ++ owned) →
    ∃ ok r', objectLoop o n r depth keys = .ok (ok, r') ∧
      Accepts (MembersFrom o (o.depthLimit - (depth + 1)) ks r.cur) AnyEnd owned ok r'

/-- One turn of the loop over the members: a key, a value, and behind it a comma, with the rest of the loop, or the closing brace.
The keys are freed wherever the loop ends. -/
theorem objectLoop_spec (hready : o.Ready) (hvalue : ValueSpec o n) (hloop : ObjectLoopSpec o n) : ObjectLoopSpec o (n + 1) := by
  intro r depth keys ks owned hfuel hlen hinv howns
  obtain ⟨ok, r₁, keys₁, hkey, hreads⟩ := parseKey_spec hready hinv howns hlen
  rw [objectLoop, hkey, ok_bind]
  dsimp only
  cases ok with
  | false =>
    rw [if_pos rfl]
    refine ⟨_, _, rfl, .refuse (keysFree_spec hreads.owns) ?_⟩
    rintro u ⟨names, hm, hnew⟩ _
    obtain ⟨is, s₀, s₁, s₂, k, s₃, hcur, hstr, hok, hcolon, _, ⟨_, rfl⟩ | ⟨_, names', _, rfl, _⟩⟩ := members_iff.1 hm
    · exact hreads.complete rfl is s₀ s₁ s₂ [] hcur hstr hok hcolon hnew
    · exact hreads.complete rfl is s₀ s₁ s₂ names' hcur hstr hok hcolon hnew
  | true =>
    obtain ⟨is, s₀, s₁, s₂, ks', hcur, hstr, hok, hcolon, hcur₁, hadd, hinv₁⟩ := hreads.sound rfl
    have hks' := hadd.length_le
    have hshort : r₁.cur.length + 1 < r.cur.length := by
      have h₁ := hstr.length_lt
      have h₂ := skipJsonWs_length_le s₁
      have h₃ := skipJsonWs_length_le s₂
      rw [hcolon, List.length_cons] at h₂
      rw [hcur, hcur₁, List.length_cons]
      omega
    obtain ⟨type, r₂, hval, hacc⟩ := hvalue r₁ (depth + 1) (keysBlocks keys₁ ++ owned) (by omega) (by omega) hreads.owns
    have hiff : ∀ u, MembersFrom o (o.depthLimit - (depth + 1)) ks r.cur u ↔ _ := fun u =>
      membersFrom_iff hcur hstr hok hcolon hcur₁ hadd hinv₁.nodup hacc
    rw [if_neg (by simp), hval, ok_bind]
    dsimp only
    cases type with
    | none => exact ⟨_, _, rfl, .refuse (keysFree_spec hacc.owns) fun u h _ => absurd ((hiff u).1 h).1 Bool.false_ne_true⟩
    | some t =>
      obtain ⟨k, _, hv⟩ := hacc.sound t rfl
      have hlt := hv.length_lt
      have hle := skipJsonWs_length_le r₂.cur
      rw [if_neg (by simp)]
      rw [← skipWs_cur] at hiff hle
      have howns₃ : Owns r₂.skipWs.heap (keysBlocks keys₁ ++ owned) := hacc.owns
      generalize r₂.skipWs = r₃ at hiff hle howns₃ ⊢
      cases hcur₃ : r₃.cur with
      | nil =>
        rw [if_pos rfl]
        refine ⟨_, _, rfl, .refuse (keysFree_spec howns₃) fun u h _ => ?_⟩
        rcases ((hiff u).1 h).2 with h | ⟨s, h, _⟩
        · cases hcur₃.symm.trans h
        · cases hcur₃.symm.trans h
      | cons c s =>
        rw [hcur₃, List.length_cons] at hle
        rw [if_neg (List.cons_ne_nil _ _), deref_bind]
        split
        · next hc =>
          subst hc
          refine ⟨_, _, rfl, keysFree_spec howns₃, fun _ => (hiff _).2 ⟨rfl, Or.inl ?_⟩, fun u h _ => ⟨rfl, ?_⟩⟩
          · rw [keysFree_cur, advance_cur, hcur₃]
            rfl
          · rcases ((hiff u).1 h).2 with h | ⟨s', h, _⟩
            · rw [keysFree_cur, advance_cur, h]
              rfl
            · cases hcur₃.symm.trans h
        · next hc =>
          split
          · next hc' =>
            refine ⟨_, _, rfl, .refuse (keysFree_spec howns₃) fun u h _ => ?_⟩
            rcases ((hiff u).1 h).2 with h | ⟨s', h, _⟩
            · cases hcur₃.symm.trans h
              exact hc rfl
            · cases hcur₃.symm.trans h
              exact hc' rfl
          · next hc' =>
            obtain rfl := not_not.1 hc'
            obtain ⟨hiff', hle'⟩ := rest_after_comma hcur₃ (by decide) rfl hiff
            have howns₄ : Owns r₃.advance.skipWs.heap (keysBlocks keys₁ ++ owned) := howns₃
            generalize r₃.advance.skipWs = r₄ at hiff' hle' howns₄ ⊢
            cases hcur₄ : r₄.cur with
            | nil =>
              rw [if_pos rfl]
              refine ⟨_, _, rfl, .refuse (keysFree_spec howns₄) fun u h _ => ?_⟩
              obtain ⟨_, heq⟩ := ((hiff' u).1 h).start
              cases hcur₄.symm.trans heq
            | cons c' s' =>
              rw [if_neg (List.cons_ne_nil _ _), deref_bind]
              split
              · next hc' =>
                refine ⟨_, _, rfl, .refuse (keysFree_spec howns₄) fun u h _ => ?_⟩
                obtain ⟨_, heq⟩ := ((hiff' u).1 h).start
                cases hcur₄.symm.trans heq
                exact absurd hc' (by decide)
              · obtain ⟨ok, r', hrun, hacc'⟩ := hloop r₄ depth keys₁ ks' owned (by omega) (by omega) hinv₁ howns₄
                exact ⟨ok, r', hrun, hacc'.owns, fun hok => (hiff' _).2 (hacc'.sound hok),
                  fun u h _ => hacc'.complete u ((hiff' u).1 h) trivial⟩

/-- What comes behind the opening brace of an object. -/
def ObjectRest (o : PgTextOptions) (d : Nat) (s u : List Byte) : Prop :=
  ∃ d', d = d' + 1 ∧ (skipJsonWs s = 0x7d :: u ∨ MembersFrom o d' [] (skipJsonWs s) u)

def ObjectSpec (o : PgTextOptions) (n : Nat) : Prop :=
  ∀ (r : PgReader) (depth : Nat) (owned : List Nat) (s : List Byte), r.cur = 0x7b :: s → 3 * (s.length + 1) ≤ n → s.length < o.len →
    Owns r.heap owned →
    ∃ ok r', parseObject o n r depth = .ok (ok, r') ∧ Accepts (ObjectRest o (o.depthLimit - depth) s) AnyEnd owned ok r'

/-- An object is empty, or the loop reads its members, with an empty list of keys; a level that is too deep is refused before. -/
theorem parseObject_spec (hloop : ObjectLoopSpec o n) : ObjectSpec o (n + 1) := by
  intro r depth owned s hcur hfuel hlen howns
  rw [parseObject]
  split
  · next hdepth =>
    refine ⟨_, _, rfl, .refuse (by rw [setError_heap]; exact howns) ?_⟩
    rintro u ⟨d', hd, _⟩ _
    omega
  · next hdepth =>
    have hd : o.depthLimit - depth = o.depthLimit - (depth + 1) + 1 := by omega
    have hcur' : r.advance.skipWs.cur = skipJsonWs s := by rw [skipWs_cur, advance_cur, hcur, List.tail_cons]
    have howns' : Owns r.advance.skipWs.heap owned := howns
    have hle := skipJsonWs_length_le s
    generalize r.advance.skipWs = r₁ at hcur' howns' ⊢
    dsimp only
    -- without a closing brace members follow
    have hmembers : (∀ u, skipJsonWs s ≠ 0x7d :: u) → ∃ ok r', objectLoop o n r₁ depth PgKeyList.empty = .ok (ok, r') ∧
        Accepts (ObjectRest o (o.depthLimit - depth) s) AnyEnd owned ok r' := by
      intro hne
      obtain ⟨ok, r', hrun, hacc⟩ := hloop r₁ depth PgKeyList.empty [] owned (by rw [hcur']; omega)
        (by rw [hcur', List.length_nil]; omega) keysInv_empty howns'
      rw [hcur'] at hacc
      refine ⟨ok, r', hrun, hacc.owns, fun hok => ⟨_, hd, Or.inr (hacc.sound hok)⟩, ?_⟩
      rintro u ⟨d', hd', h | h⟩ _
      · exact absurd h (hne u)
      · obtain rfl : d' = o.depthLimit - (depth + 1) := by omega
        exact hacc.complete u h trivial
    cases hr : r₁.cur with
    | nil =>
      rw [if_pos rfl]
      refine hmembers fun u h => ?_
      cases (hcur'.symm.trans hr).symm.trans h
    | cons c t =>
      rw [if_neg (List.cons_ne_nil _ _), deref_bind]
      have hskip : skipJsonWs s = c :: t := hcur'.symm.trans hr
      split
      · next hc =>
        subst hc
        have hadv : r₁.advance.cur = t := by rw [advance_cur, hr, List.tail_cons]
        refine ⟨_, _, rfl, howns', fun _ => ⟨_, hd, Or.inl (by rw [hadv, hskip])⟩, ?_⟩
        rintro u ⟨d', hd', h | h⟩ _
        · cases hskip.symm.trans h
          exact ⟨rfl, hadv⟩
        · obtain ⟨_, heq⟩ := h.start
          cases hskip.symm.trans heq
      · next hc =>
        refine hmembers fun u h => hc ?_
        cases hskip.symm.trans h
        rfl

end Objects

/-! ## Values -/

section Productions

variable {R : Rules} {d : Nat} {k : Kind} {s u : List Byte}

/-- No number starts with this byte. -/
theorem not_number {c : Byte} (hc : ¬ (c = 0x2d ∨ IsDigit c)) : ¬ Number (c :: s) u := by
  intro h
  obtain ⟨_, _, heq, hstart⟩ := h.start
  cases heq
  exact hc hstart

/-- A brace opens an object and nothing else. -/
theorem value_object {o : PgTextOptions} :
    Value (jsonRules o) d k (0x7b :: s) u ↔ k = .object ∧ ObjectRest o d s u := by
  constructor
  · intro h
    cases h with
    | number h => exact absurd h (not_number (by unfold IsDigit; decide))
    | emptyObject hw => exact ⟨rfl, _, rfl, Or.inl ((skipJsonWs_cons (not_ws_of_sep (by decide))).2 hw)⟩
    | object hw hm hn =>
      obtain ⟨_, rfl⟩ := hm.start
      refine ⟨rfl, _, rfl, Or.inr ⟨_, ?_, hn⟩⟩
      rwa [(skipJsonWs_cons (not_ws_of_sep (by decide))).2 hw]
  · rintro ⟨rfl, d', rfl, h | ⟨names, hm, hn⟩⟩
    · exact .emptyObject (ws_of_skip h)
    · exact .object (ws_of_skip rfl) hm hn

/-- A bracket opens an array and nothing else. -/
theorem value_array {o : PgTextOptions} :
    Value (jsonRules o) d k (0x5b :: s) u ↔ k = .array ∧ ArrayRest o d s u := by
  constructor
  · intro h
    cases h with
    | number h => exact absurd h (not_number (by unfold IsDigit; decide))
    | emptyArray hw => exact ⟨rfl, _, rfl, Or.inl ((skipJsonWs_cons (not_ws_of_sep (by decide))).2 hw)⟩
    | array hw he =>
      obtain ⟨_, _, rfl, hc, _⟩ := he.start
      refine ⟨rfl, _, rfl, Or.inr ?_⟩
      rwa [(skipJsonWs_cons hc).2 hw]
  · rintro ⟨rfl, d', rfl, h | he⟩
    · exact .emptyArray (ws_of_skip h)
    · exact .array (ws_of_skip rfl) he

/-- A quote opens a string and nothing else. -/
theorem value_str : Value R d k (0x22 :: s) u ↔ k = .scalar ∧ ∃ is, Str is s u ∧ R.str is := by
  constructor
  · intro h
    cases h with
    | str h hok => exact ⟨rfl, _, h, hok⟩
    | number h => exact absurd h (not_number (by unfold IsDigit; decide))
  · rintro ⟨rfl, is, h, hok⟩
    exact .str h hok

/-- The letter `t` starts `true` and nothing else. -/
theorem value_true : Value R d k (0x74 :: s) u ↔ k = .scalar ∧ 0x74 :: s = [0x74, 0x72, 0x75, 0x65] ++ u := by
  constructor
  · intro h
    cases h with
    | number h => exact absurd h (not_number (by unfold IsDigit; decide))
    | true => exact ⟨rfl, rfl⟩
  · rintro ⟨rfl, h⟩
    rw [h]
    exact .true

/-- The letter `f` starts `false` and nothing else. -/
theorem value_false : Value R d k (0x66 :: s) u ↔ k = .scalar ∧ 0x66 :: s = [0x66, 0x61, 0x6c, 0x73, 0x65] ++ u := by
  constructor
  · intro h
    cases h with
    | number h => exact absurd h (not_number (by unfold IsDigit; decide))
    | false => exact ⟨rfl, rfl⟩
  · rintro ⟨rfl, h⟩
    rw [h]
    exact .false

/-- The letter `n` starts `null` and nothing else. -/
theorem value_null : Value R d k (0x6e :: s) u ↔ k = .scalar ∧ 0x6e :: s = [0x6e, 0x75, 0x6c, 0x6c] ++ u := by
  constructor
  · intro h
    cases h with
    | number h => exact absurd h (not_number (by unfold IsDigit; decide))
    | null => exact ⟨rfl, rfl⟩
  · rintro ⟨rfl, h⟩
    rw [h]
    exact .null

/-- Any other value is a number. -/
theorem value_other {c : Byte} (hc : c ≠ 0x7b ∧ c ≠ 0x5b ∧ c ≠ 0x22 ∧ c ≠ 0x74 ∧ c ≠ 0x66 ∧ c ≠ 0x6e) :
    Value R d k (c :: s) u ↔ k = .scalar ∧ Number (c :: s) u := by
  obtain ⟨h₁, h₂, h₃, h₄, h₅, h₆⟩ := hc
  constructor
  · intro h
    cases h with
    | number h => exact ⟨rfl, h⟩
    | str _ _ => exact absurd rfl h₃
    | true => exact absurd rfl h₄
    | false => exact absurd rfl h₅
    | null => exact absurd rfl h₆
    | emptyArray _ => exact absurd rfl h₂
    | array _ _ => exact absurd rfl h₂
    | emptyObject _ => exact absurd rfl h₁
    | object _ _ _ => exact absurd rfl h₁
  · rintro ⟨rfl, h⟩
    exact .number h

end Productions

section Values

variable {o : PgTextOptions} {n : Nat}

/-- A literal is accepted when it is there. -/
theorem matchLiteral_spec {r : PgReader} {owned : List Nat} (lit : List Byte) (howns : Owns r.heap owned) :
    Accepts (fun u => r.cur = lit ++ u) AnyEnd owned (matchLiteral r lit).1 (matchLiteral r lit).2 where
  owns := by rw [matchLiteral_heap]; exact howns
  sound := fun hok => (matchLiteral_true (Prod.ext hok rfl)).1
  complete := by
    intro u h _
    rw [matchLiteral_eq h]
    exact ⟨rfl, rfl⟩

/-- The reader of numbers accepts a number, and reads all of it. -/
theorem parseNumber_spec {r : PgReader} {owned : List Nat} (howns : Owns r.heap owned) :
    ∃ ok r', parseNumber r = .ok (ok, r') ∧ Accepts (Number r.cur) NumberEnd owned ok r' := by
  have hscan := numberScan_scans r.cur
  rw [parseNumber_eq]
  obtain ⟨res, hres⟩ := hscan.ends
  rw [hres, ok_bind]
  cases res with
  | none => exact ⟨_, _, rfl, .refuse howns fun u hu hend => nomatch hres.symm.trans (hscan.complete u hu hend)⟩
  | some cur =>
    refine ⟨_, _, rfl, howns, fun _ => hscan.sound cur hres, fun u hu hend => ⟨rfl, ?_⟩⟩
    cases hres.symm.trans (hscan.complete u hu hend)
    rfl

/-- A value is told by its first byte, and each of the readers accepts its own kind. -/
theorem parseValue_spec (hready : o.Ready) (harray : ArraySpec o n) (hobject : ObjectSpec o n) : ValueSpec o (n + 1) := by
  intro r depth owned hfuel hlen howns
  rw [parseValue]
  cases hcur : r.cur with
  | nil =>
    rw [if_pos rfl]
    refine ⟨_, _, rfl, howns, fun t ht => absurd ht (Option.some_ne_none t).symm, fun k u h _ => ?_⟩
    obtain ⟨_, _, heq, _⟩ := h.start
    cases heq
  | cons c s =>
    rw [hcur, List.length_cons] at hlen hfuel
    rw [if_neg (List.cons_ne_nil _ _), deref_bind]
    split
    · next hc =>
      subst hc
      obtain ⟨ok, r', hrun, hacc⟩ := hobject r depth owned s hcur (by omega) (by omega) howns
      rw [hrun, ok_bind]
      exact ⟨_, _, rfl, .of_production hacc .object (fun _ _ => value_object) fun _ _ => trivial⟩
    · next hc₁ =>
      split
      · next hc =>
        subst hc
        obtain ⟨ok, r', hrun, hacc⟩ := harray r depth owned s hcur (by omega) (by omega) howns
        rw [hrun, ok_bind]
        exact ⟨_, _, rfl, .of_production hacc .array (fun _ _ => value_array) fun _ _ => trivial⟩
      · next hc₂ =>
        split
        · next hc =>
          subst hc
          obtain ⟨res, r', hrun, hreads⟩ := parseString_spec hready (by rw [hcur, List.length_cons]; exact hlen) howns
          rw [hrun, ok_bind]
          refine ⟨_, _, rfl, owns_free hreads.owns, ?_, ?_⟩
          · intro t ht
            obtain ⟨buf, hbuf, rfl⟩ := Option.map_eq_some_iff.1 ht
            obtain ⟨is, s', hcur', hstr, hdec⟩ := hreads.sound buf hbuf
            cases hcur.symm.trans hcur'
            refine ⟨.scalar, rfl, value_str.2 ⟨rfl, is, ?_, fun hd => (hdec hd).imp fun _ h => h.1⟩⟩
            rw [free_cur]
            exact hstr
          · intro k u hv _
            obtain ⟨rfl, is, hstr, hok⟩ := value_str.1 hv
            obtain ⟨buf, rfl⟩ := Option.isSome_iff_exists.1 (hreads.complete is s u hcur hstr hok)
            obtain ⟨is', s', hcur', hstr', _⟩ := hreads.sound buf rfl
            cases hcur.symm.trans hcur'
            refine ⟨rfl, ?_⟩
            rw [free_cur]
            exact (hstr'.unique hstr).2
        · next hc₃ =>
          split
          · next hc =>
            subst hc
            exact ⟨_, _, rfl, .of_production (hcur ▸ matchLiteral_spec _ howns) .scalar (fun _ _ => value_true) fun _ _ => trivial⟩
          · next hc₄ =>
            split
            · next hc =>
              subst hc
              exact ⟨_, _, rfl, .of_production (hcur ▸ matchLiteral_spec _ howns) .scalar (fun _ _ => value_false) fun _ _ => trivial⟩
            · next hc₅ =>
              split
              · next hc =>
                subst hc
                exact ⟨_, _, rfl, .of_production (hcur ▸ matchLiteral_spec _ howns) .scalar (fun _ _ => value_null) fun _ _ => trivial⟩
              · next hc₆ =>
                have hother : ∀ k u, Value (jsonRules o) (o.depthLimit - depth) k (c :: s) u ↔ k = .scalar ∧ Number (c :: s) u :=
                  fun k u => value_other ⟨hc₁, hc₂, hc₃, hc₄, hc₅, hc₆⟩
                split
                · next hc =>
                  obtain ⟨ok, r', hrun, hacc⟩ := parseNumber_spec howns
                  rw [hrun, ok_bind]
                  rw [hcur] at hacc
                  exact ⟨_, _, rfl, .of_production hacc .scalar hother fun _ h => h⟩
                · next hc =>
                  refine ⟨_, _, rfl, howns, fun t ht => absurd ht (Option.some_ne_none t).symm, fun k u h _ => ?_⟩
                  exact absurd ((hother k u).1 h).2 (not_number fun h => hc (h.imp_right (isJsonDigit_iff c).2))

/-- All five parsers are as the grammar has it, with any fuel. -/
theorem specs (hready : o.Ready) (n : Nat) :
    ValueSpec o n ∧ ArraySpec o n ∧ ArrayLoopSpec o n ∧ ObjectSpec o n ∧ ObjectLoopSpec o n := by
  induction n with
  | zero =>
    refine ⟨?_, ?_, ?_, ?_, ?_⟩
    · exact fun r _ _ hfuel => absurd hfuel (by omega)
    · exact fun r _ _ s _ hfuel => absurd hfuel (by omega)
    · exact fun r _ _ hfuel => absurd hfuel (by omega)
    · exact fun r _ _ s _ hfuel => absurd hfuel (by omega)
    · exact fun r _ _ _ _ hfuel => absurd hfuel (by omega)
  | succ n ih =>
    obtain ⟨hvalue, harray, harrayLoop, hobject, hobjectLoop⟩ := ih
    exact ⟨parseValue_spec hready harray hobject, parseArray_spec harrayLoop, arrayLoop_spec hvalue harrayLoop,
      parseObject_spec hobjectLoop, objectLoop_spec hready hvalue hobjectLoop⟩

end Values

end JsonValueAux

end PgJitter
