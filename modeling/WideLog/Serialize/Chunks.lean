import WideLog.Serialize.Text

/-!
# The serializer on any writer

A writer may fail at any call, for any reason, and in a state that depends on all that
was written before.  What the serializer passes to it does not depend on the writer: the
event alone determines the byte strings, they are passed in order, and the first one that
is refused ends the call with the message of the refusal.
-/

namespace WideLog

variable {K : Type} [Key K]

/-- Some byte strings, one `write_all` each, up to the first error. -/
def Writer.writeChunks {W : Type} (wr : Writer W) (chunks : List (List UInt8)) (w : W) :
    Except IoError W :=
  chunks.foldlM (fun w bs ↦ wr.writeAll bs w) w

/-- Whatever the writer, the function passes the same byte strings to it. -/
def Chunked (act : (W : Type) → Writer W → W → Except IoError W) : Prop :=
  ∃ chunks, ∀ W wr w, act W wr w = wr.writeChunks chunks w

namespace Chunked

variable {a b : (W : Type) → Writer W → W → Except IoError W}

theorem pure : Chunked fun _ _ w ↦ .ok w := ⟨[], fun _ _ _ ↦ rfl⟩

theorem writeAll (bs : List UInt8) : Chunked fun _ wr w ↦ wr.writeAll bs w := by
  refine ⟨[bs], fun W wr w ↦ ?_⟩
  simp [Writer.writeChunks]

/-- One function after the other. -/
theorem bind (ha : Chunked a) (hb : Chunked b) : Chunked fun W wr w ↦ a W wr w >>= b W wr := by
  obtain ⟨as, ha⟩ := ha
  obtain ⟨bs, hb⟩ := hb
  refine ⟨as ++ bs, fun W wr w ↦ ?_⟩
  have hb' : b W wr = wr.writeChunks bs := funext (hb W wr)
  show a W wr w >>= b W wr = _
  rw [Writer.writeChunks, List.foldlM_append, ha, hb']
  rfl

theorem ite {p : Prop} [Decidable p] (ha : Chunked a) (hb : Chunked b) :
    Chunked fun W wr w ↦ if p then a W wr w else b W wr w := by
  by_cases h : p
  · simpa only [if_pos h] using ha
  · simpa only [if_neg h] using hb

end Chunked

theorem chunked_jsonChar (c : Char) : Chunked fun _ wr w ↦ writeJsonChar wr c w := by
  unfold writeJsonChar
  repeat' refine .ite (.writeAll _) ?_
  exact .writeAll _

theorem chunked_jsonStr (s : String) : Chunked fun _ wr w ↦ writeJsonStr wr s w := by
  have hchars (cs : List Char) :
      Chunked fun _ wr w ↦ cs.foldlM (fun w c ↦ writeJsonChar wr c w) w := by
    induction cs with
    | nil => exact .pure
    | cons c cs ih => exact (chunked_jsonChar c).bind ih
  exact (Chunked.writeAll _).bind ((hchars s.toList).bind (.writeAll _))

theorem chunked_comma (first : Bool) : Chunked fun _ wr w ↦ writeComma wr first w :=
  .ite .pure (.writeAll _)

theorem chunked_logEntries (entries : List LogEntry) (first : Bool) :
    Chunked fun _ wr w ↦ writeLogEntries wr K first entries w := by
  have hentry (entry : LogEntry) : Chunked fun _ wr w ↦ writeLogEntry wr K entry w :=
    (Chunked.writeAll _).bind ((chunked_jsonStr _).bind ((Chunked.writeAll _).bind
      ((chunked_jsonStr _).bind ((Chunked.writeAll _).bind ((chunked_jsonStr _).bind
        ((Chunked.writeAll _).bind ((chunked_jsonStr _).bind (.writeAll _))))))))
  induction entries generalizing first with
  | nil => exact .pure
  | cons entry entries ih => exact (chunked_comma first).bind ((hentry entry).bind (ih false))

theorem chunked_log (logEntries : List LogEntry) (first : Bool) :
    Chunked fun _ wr w ↦ writeLog wr K logEntries first w :=
  .ite .pure ((chunked_comma first).bind ((chunked_jsonStr _).bind ((Chunked.writeAll _).bind
    ((Chunked.writeAll _).bind ((chunked_logEntries logEntries true).bind (.writeAll _))))))

section

variable (ryu : F64 → String)

/-- The loop over the slots passes the same byte strings to every writer, and tells every
writer's caller the same about the next member. -/
def ChunkedSlots (keys : List K) (slots : List (Option (Value K))) (first : Bool) : Prop :=
  ∃ chunks next, ∀ (W : Type) (wr : Writer W) w,
    writeSlots wr ryu keys slots first w = (fun w ↦ (next, w)) <$> wr.writeChunks chunks w

mutual

theorem chunked_value (v : Value K) : Chunked fun _ wr w ↦ writeValue wr ryu v w :=
  match v with
  | .null => .writeAll _
  | .bool _ => .ite (.writeAll _) (.writeAll _)
  | .i64 _ => .writeAll _
  | .u64 _ => .writeAll _
  | .f64 _ => .ite (.writeAll _) (.writeAll _)
  | .str s => chunked_jsonStr s
  | .staticStr s => chunked_jsonStr s
  | .array arr => (Chunked.writeAll _).bind ((chunked_array arr true).bind (.writeAll _))
  | .object obj => chunked_event obj
termination_by structural v

theorem chunked_array (vs : List (Value K)) (first : Bool) :
    Chunked fun _ wr w ↦ writeArray wr ryu vs first w :=
  match vs with
  | [] => .pure
  | v :: vs => (chunked_comma first).bind ((chunked_value v).bind (chunked_array vs false))
termination_by structural vs

theorem chunked_event (ev : WideEvent K) : Chunked fun _ wr w ↦ writeEvent wr ryu ev w :=
  match ev with
  | ⟨values, logEntries, _, _⟩ => by
      obtain ⟨chunks, next, hslots⟩ := chunked_slots Key.keys values true
      have hloop : Chunked fun _ wr w ↦ wr.writeChunks chunks w := ⟨chunks, fun _ _ _ ↦ rfl⟩
      obtain ⟨all, hall⟩ := (Chunked.writeAll (bytes "\x7b")).bind
        (hloop.bind ((chunked_log (K := K) logEntries next).bind (.writeAll (bytes "\x7d"))))
      refine ⟨all, fun W wr w ↦ Eq.trans ?_ (hall W wr w)⟩
      simp only [writeEvent, hslots, bind_map_left]
termination_by structural ev

theorem chunked_slots (keys : List K) (slots : List (Option (Value K))) (first : Bool) :
    ChunkedSlots ryu keys slots first :=
  match keys, slots with
  | [], [] => ⟨[], first, fun _ _ _ ↦ rfl⟩
  | [], _ :: _ => ⟨[], first, fun _ _ _ ↦ rfl⟩
  | _ :: _, [] => ⟨[], first, fun _ _ _ ↦ rfl⟩
  | _ :: keys, none :: slots => chunked_slots keys slots first
  | key :: keys, some val :: slots => by
      obtain ⟨rest, next, hrest⟩ := chunked_slots keys slots false
      obtain ⟨member, hmember⟩ := (chunked_comma first).bind ((chunked_jsonStr (Key.asStr key)).bind
        ((Chunked.writeAll (bytes ":")).bind (chunked_value val)))
      refine ⟨member ++ rest, next, fun W wr w ↦ ?_⟩
      have hfirst := hmember W wr w
      rw [Writer.writeChunks, List.foldlM_append, map_bind, ← Writer.writeChunks, ← hfirst]
      simp only [writeSlots, hrest, bind_assoc]
      rfl
termination_by structural slots

end

/-- **The serializer is the same on every writer.**  There are byte strings, together the
encoded text of the event, that `serialize_to` passes to any writer in any state, in this
order and one at a time; it returns the state after the last of them, or the message of
the first error, and passes nothing on after an error. -/
theorem serializeTo_chunks (ev : WideEvent K) : ∃ chunks : List (List UInt8),
    chunks.flatten = utf8 (ev.text ryu) ∧ ∀ (W : Type) (wr : Writer W) (w : W),
      serializeTo wr ryu ev w =
        (wr.writeChunks chunks w).mapError fun e ↦ .serialize e.message := by
  obtain ⟨chunks, hchunks⟩ := chunked_event ryu ev
  have hserialize (W : Type) (wr : Writer W) (w : W) : serializeTo wr ryu ev w =
      (wr.writeChunks chunks w).mapError fun e ↦ .serialize e.message := by
    have hevent : writeEvent wr ryu ev w = wr.writeChunks chunks w := hchunks W wr w
    rw [serializeTo, hevent]
    cases wr.writeChunks chunks w <;> rfl
  refine ⟨chunks, ?_, hserialize⟩
  -- a byte vector holds what it was passed
  have hvec (cs : List (List UInt8)) (w : List UInt8) :
      vecWriter.writeChunks cs w = .ok (w ++ cs.flatten) := by
    induction cs generalizing w with
    | nil => simp [Writer.writeChunks, pure, Except.pure]
    | cons c cs ih =>
        rw [List.flatten_cons, ← List.append_assoc]
        exact ih (w ++ c)
  have hok := hserialize _ vecWriter []
  rw [serializeTo_vecWriter, hvec] at hok
  exact (Except.ok.inj hok).symm

end

end WideLog
