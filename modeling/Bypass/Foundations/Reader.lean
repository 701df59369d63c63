import Bypass.Foundations.Text

/-!
# Readers

A stream is read by calls that may return fewer bytes than they ask for, be interrupted, or fail.
What a reader is still going to do is a list of deliveries, which the calls use up; so one stream
has many readers, one for each way of cutting it into pieces (`Delivers`).

* `Delivers.read_next`: whatever the pieces are, `readExact` returns the next bytes of the stream.
* `Delivers.read_eof`: at the end of the stream, it says so.
-/

namespace Bypass

/-- What a read meets. -/
inductive Delivery (IE : Type) where
  | chunk (bytes : Bytes)
  | interrupted
  | failed (e : IE)

/-- The errors of `read_exact`. -/
inductive ReadError (IE : Type) where
  | unexpectedEof
  | io (e : IE)
  deriving DecidableEq

variable {IE : Type}

/-- `Read::read_exact`, into a buffer of so many bytes. A read takes what has been delivered, at
most what it asks for. An interrupted read is made again, and one that returns nothing has met the
end of the stream. -/
def readExact : ℕ → List (Delivery IE) → Except (ReadError IE) Bytes × List (Delivery IE)
  | 0, ds => (.ok [], ds)
  | _ + 1, [] => (.error .unexpectedEof, [])
  | n + 1, .interrupted :: ds => readExact (n + 1) ds
  | _ + 1, .failed e :: ds => (.error (.io e), ds)
  | n + 1, .chunk b :: ds =>
    if b = [] then (.error .unexpectedEof, ds)
    else if n + 1 < b.length then (.ok (b.take (n + 1)), .chunk (b.drop (n + 1)) :: ds)
    else
      let (rest, ds) := readExact (n + 1 - b.length) ds
      (rest.map (b ++ ·), ds)

/-- How much is still to come. -/
def deliverySize (ds : List (Delivery IE)) : ℕ :=
  (ds.map fun | .chunk b => b.length + 1 | _ => 1).sum

/-- Reading uses up what has been delivered. -/
theorem readExact_size (n : ℕ) (ds : List (Delivery IE)) :
    deliverySize (readExact n ds).2 ≤ deliverySize ds ∧
      ∀ b, 0 < n → (readExact n ds).1 = .ok b →
        deliverySize (readExact n ds).2 < deliverySize ds := by
  fun_induction readExact n ds with
  | case1 ds => exact ⟨le_rfl, fun b hn => absurd hn (lt_irrefl 0)⟩
  | case2 n => exact ⟨le_rfl, nofun⟩
  | case3 n ds ih =>
    refine ⟨?_, fun b hn hb => ?_⟩
    · have hle := ih.1
      simp [deliverySize] at hle ⊢
      omega
    · have hlt := ih.2 b hn hb
      simp [deliverySize] at hlt ⊢
      omega
  | case4 n e ds => exact ⟨by simp [deliverySize], nofun⟩
  | case5 n ds => exact ⟨by simp [deliverySize], nofun⟩
  | case6 n b ds hb hlen =>
    have hlt : deliverySize (.chunk (b.drop (n + 1)) :: ds) < deliverySize (.chunk b :: ds) := by
      simp [deliverySize]
      omega
    exact ⟨hlt.le, fun _ _ _ => hlt⟩
  | case7 n b ds hb hlen rest ds' hread ih =>
    have hlt : deliverySize ds' < deliverySize (.chunk b :: ds) := by
      have hle := ih.1
      rw [hread] at hle
      simp [deliverySize] at hle ⊢
      omega
    exact ⟨hlt.le, fun _ _ _ => hlt⟩

/-- The reader delivers this stream, in pieces of any size, with any interruptions, and then its
end. -/
inductive Delivers : List (Delivery IE) → Bytes → Prop
  | nil : Delivers [] []
  | interrupted {ds : List (Delivery IE)} {stream : Bytes} : Delivers ds stream →
      Delivers (.interrupted :: ds) stream
  | chunk {b : Bytes} {ds : List (Delivery IE)} {stream : Bytes} : b ≠ [] → Delivers ds stream →
      Delivers (.chunk b :: ds) (b ++ stream)

variable {ds : List (Delivery IE)}

/-- **The next bytes of the stream**, whatever pieces they come in. -/
theorem Delivers.read_next {next rest : Bytes} (h : Delivers ds (next ++ rest)) :
    ∃ ds', readExact next.length ds = (.ok next, ds') ∧ Delivers ds' rest := by
  generalize hstream : next ++ rest = stream at h
  induction h generalizing next with
  | nil =>
    obtain ⟨rfl, rfl⟩ := List.append_eq_nil_iff.1 hstream
    exact ⟨[], rfl, .nil⟩
  | @interrupted ds stream hds ih =>
    cases next with
    | nil =>
      obtain rfl : rest = stream := hstream
      exact ⟨_, rfl, .interrupted hds⟩
    | cons x next => exact ih hstream
  | @chunk b ds stream hb hds ih =>
    cases next with
    | nil =>
      obtain rfl : rest = b ++ stream := hstream
      exact ⟨_, rfl, .chunk hb hds⟩
    | cons x next =>
      rw [List.length_cons, readExact, if_neg hb]
      rcases List.append_eq_append_iff.1 hstream with ⟨w, rfl, rfl⟩ | ⟨w, hnext, rfl⟩
      · -- the piece holds all that is asked for, and `w` besides
        by_cases hw : w = []
        · subst hw
          obtain ⟨ds', hread, hds'⟩ := @ih [] rfl
          have hread₀ : readExact 0 ds = (.ok [], ds') := hread
          refine ⟨ds', ?_, hds'⟩
          simp [hread₀, Except.map]
        · have hlen : next.length + 1 < (x :: next ++ w).length := by
            have hpos := List.length_pos_of_ne_nil hw
            simp only [List.cons_append, List.length_cons, List.length_append]
            omega
          have htake : (x :: next ++ w).take (next.length + 1) = x :: next :=
            List.take_left' rfl
          have hdrop : (x :: next ++ w).drop (next.length + 1) = w :=
            List.drop_left' rfl
          rw [if_pos hlen, htake, hdrop]
          exact ⟨_, rfl, .chunk hw hds⟩
      · -- the piece is used up, and `w` is still to come
        have hlength := congrArg List.length hnext
        simp only [List.length_cons, List.length_append] at hlength
        have hlen : ¬ next.length + 1 < b.length := by omega
        have hrest : next.length + 1 - b.length = w.length := by omega
        obtain ⟨ds', hread, hds'⟩ := ih rfl
        refine ⟨ds', ?_, hds'⟩
        rw [if_neg hlen, hrest, hread, hnext]
        rfl

/-- **The end of the stream**: it has fewer bytes than are asked for. -/
theorem Delivers.read_eof {stream : Bytes} (h : Delivers ds stream) {n : ℕ}
    (hn : stream.length < n) : (readExact n ds).1 = .error .unexpectedEof := by
  obtain ⟨n, rfl⟩ := Nat.exists_eq_succ_of_ne_zero (Nat.ne_zero_of_lt hn)
  induction h generalizing n with
  | nil => rfl
  | interrupted _ ih => exact ih n hn
  | @chunk b ds stream hb hds ih =>
    rw [List.length_append] at hn
    have hlen : ¬ n + 1 < b.length := by omega
    obtain ⟨m, hm⟩ : ∃ m, n + 1 - b.length = m + 1 := ⟨n - b.length, by omega⟩
    have hread := ih m (by omega)
    rw [readExact, if_neg hb, if_neg hlen, hm]
    simp only [hread]
    rfl

end Bypass
