import SimpleChat.Text.Enclosed

/-!
# Scanners

A scanner reads a text symbol by symbol. In a mode, a symbol yields the tokens that it completes
and the next mode; the end of the text yields the tokens that the mode has still pending.

## Main definitions

* `Scanner`, `Scanner.scanFrom`, `Scanner.scan`: a scanner and the tokens of a text
* `Scanner.feed`: the tokens that a text completes, and the mode after it
* `Scanner.Weighs`: a weight of tokens of which every symbol pays at most one

## Main results

* `Scanner.scanFrom_absorb`: symbols that only extend a mode
* `Scanner.scanFrom_ended`: a symbol that ends a token separates the tokens before and after it
* `Scanner.scan_enclosed_items`, `Scanner.scan_enclosed`: the tokens of a separated list, item by item
* `Scanner.sum_weight_scan_le`: the tokens of a text weigh at most its length
-/

namespace Text

/-- A scanner of symbols `β` into tokens `τ` with modes `μ`. -/
structure Scanner (β τ μ : Type*) where
  start : μ
  next : μ → β → List τ × μ
  finish : μ → List τ

namespace Scanner

variable {β τ μ : Type*} (S : Scanner β τ μ)

/-- The tokens of a text that is read from a mode. -/
def scanFrom : μ → List β → List τ
  | m, [] => S.finish m
  | m, b :: bs => (S.next m b).1 ++ scanFrom (S.next m b).2 bs

/-- The tokens of a text. -/
def scan (bs : List β) : List τ := S.scanFrom S.start bs

/-- The tokens that a text completes from a mode, and the mode after it. -/
def feed : μ → List β → List τ × μ
  | m, [] => ([], m)
  | m, b :: bs => ((S.next m b).1 ++ (feed (S.next m b).2 bs).1, (feed (S.next m b).2 bs).2)

variable {S}

theorem scanFrom_append (m : μ) (bs cs : List β) :
    S.scanFrom m (bs ++ cs) = (S.feed m bs).1 ++ S.scanFrom (S.feed m bs).2 cs := by
  induction bs generalizing m with
  | nil => rfl
  | cons b bs ih => rw [List.cons_append, scanFrom, feed, ih, List.append_assoc]

/-- A symbol that ends the token a text stops in, as the end of the text would, and is a token of its
own. -/
theorem scanFrom_ended {m : μ} {bs : List β} {b : β} {t : τ}
    (h : S.next (S.feed m bs).2 b = (S.finish (S.feed m bs).2 ++ [t], S.start)) (rest : List β) :
    S.scanFrom m (bs ++ b :: rest) = S.scanFrom m bs ++ t :: S.scan rest := by
  have hwhole : S.scanFrom m bs = (S.feed m bs).1 ++ S.finish (S.feed m bs).2 := by
    have happend := S.scanFrom_append m bs []
    rwa [List.append_nil, scanFrom] at happend
  rw [scanFrom_append, hwhole, scanFrom, h, List.append_assoc, List.append_assoc]
  rfl

theorem scanFrom_cons {m m' : μ} {b : β} {ts : List τ} (h : S.next m b = (ts, m'))
    (bs : List β) : S.scanFrom m (b :: bs) = ts ++ S.scanFrom m' bs := by
  rw [scanFrom, h]

/-- A symbol between two tokens. -/
theorem scan_cons {b : β} {ts : List τ} (h : S.next S.start b = (ts, S.start)) (bs : List β) :
    S.scan (b :: bs) = ts ++ S.scan bs :=
  scanFrom_cons h bs

/-- Symbols that a family of modes only collects. -/
theorem scanFrom_absorb {mode : List β → μ} {v : List β}
    (h : ∀ acc, ∀ b ∈ v, S.next (mode acc) b = ([], mode (acc ++ [b]))) (acc rest : List β) :
    S.scanFrom (mode acc) (v ++ rest) = S.scanFrom (mode (acc ++ v)) rest := by
  induction v generalizing acc with
  | nil => simp
  | cons b v ih =>
    rw [List.cons_append, scanFrom_cons (h acc b (List.mem_cons_self ..)), List.nil_append,
      ih fun acc x hx => h acc x (List.mem_cons_of_mem _ hx)]
    simp

/-- A separated list scans item by item if the text of each item, before either delimiter, scans
to its tokens. -/
theorem scan_enclosed_items {sep close : β} {sepTok closeTok : τ}
    (hsep : ∀ rest, S.scan (sep :: rest) = sepTok :: S.scan rest)
    (hclose : ∀ rest, S.scan (close :: rest) = closeTok :: S.scan rest)
    {xs : List (List β × List τ)} (hxs : xs ≠ [])
    (hitem : ∀ x ∈ xs, ∀ d, d = sep ∨ d = close → ∀ rest,
      S.scan (x.1 ++ d :: rest) = x.2 ++ S.scan (d :: rest)) (rest : List β) :
    S.scan (enclosed sep close (xs.map Prod.fst) ++ rest) =
      enclosed sepTok closeTok (xs.map Prod.snd) ++ S.scan rest := by
  induction xs with
  | nil => exact absurd rfl hxs
  | cons x xs ih =>
    have hx := hitem x (List.mem_cons_self ..)
    cases xs with
    | nil => simpa [enclosed, hclose] using hx close (.inr rfl) rest
    | cons y ys =>
      have htail := ih (List.cons_ne_nil _ _) fun z hz => hitem z (List.mem_cons_of_mem _ hz)
      simp only [List.map_cons] at htail
      simp [enclosed, hx sep (.inl rfl), hsep, htail]

/-- A separated list of items of one token each. -/
theorem scan_enclosed {sep close : β} {sepTok closeTok : τ}
    (hsep : ∀ rest, S.scan (sep :: rest) = sepTok :: S.scan rest)
    (hclose : ∀ rest, S.scan (close :: rest) = closeTok :: S.scan rest)
    {xs : List (List β × τ)} (hxs : xs ≠ [])
    (hitem : ∀ x ∈ xs, ∀ d, d = sep ∨ d = close → ∀ rest,
      S.scan (x.1 ++ d :: rest) = x.2 :: S.scan (d :: rest)) (rest : List β) :
    S.scan (enclosed sep close (xs.map Prod.fst) ++ rest) =
      enclosed sepTok closeTok (xs.map fun x => [x.2]) ++ S.scan rest := by
  have hne : (xs.map fun x => (x.1, [x.2])) ≠ [] := by simpa using hxs
  have hscan := scan_enclosed_items hsep hclose hne (List.forall_mem_map.mpr hitem) rest
  simpa [Function.comp_def] using hscan

/-- Every symbol adds at most one to the weight of the tokens and of the pending mode. -/
structure Weighs (S : Scanner β τ μ) (weight : τ → ℕ) (pending : μ → ℕ) : Prop where
  next : ∀ m b, ((S.next m b).1.map weight).sum + pending (S.next m b).2 ≤ pending m + 1
  finish : ∀ m, ((S.finish m).map weight).sum ≤ pending m

theorem sum_weight_scanFrom_le {weight : τ → ℕ} {pending : μ → ℕ} (h : S.Weighs weight pending)
    (m : μ) (bs : List β) :
    ((S.scanFrom m bs).map weight).sum ≤ pending m + bs.length := by
  induction bs generalizing m with
  | nil => exact h.finish m
  | cons b bs ih =>
    have hnext := h.next m b
    have htail := ih (S.next m b).2
    simp only [scanFrom, List.map_append, List.sum_append, List.length_cons]
    omega

/-- The tokens of a text weigh at most its length. -/
theorem sum_weight_scan_le {weight : τ → ℕ} {pending : μ → ℕ} (h : S.Weighs weight pending)
    (hstart : pending S.start = 0) (bs : List β) :
    ((S.scan bs).map weight).sum ≤ bs.length := by
  have hle := sum_weight_scanFrom_le h S.start bs
  rw [hstart] at hle
  simpa [scan] using hle

end Scanner

end Text
