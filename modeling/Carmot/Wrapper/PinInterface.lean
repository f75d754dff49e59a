/-
How the events of the PIN tool reach the program (pin_interface.cpp,
and the routines memtrace.cpp puts in place of the empty functions
there): the program asks for the number of events and the type of the
first one, and takes it, until none is left.

The tool counts its list in an `int` and copies the four bytes of it
into the `uint64_t` of the loop, whose upper half stays 0, so the loop
sees the length modulo 2^32.

# Left out

The tool copies eight bytes of its `int` into the program's `int` when
it hands over a type; what lies after the program's variable is not
modelled.
-/
import Mathlib.Algebra.Group.Nat.Defs
import Carmot.Wrapper.Calls

namespace Carmot.Wrapper

open Carmot.Texas

/-- What `retrieveNumAddresses` leaves in the counter. -/
def retrieveNumAddresses (queue : List PinAddress) : Nat := queue.length % 2 ^ 32

/-- `retrieveAddressesVector`: the vector, and what is left of the
tool's list. Each turn takes one event off the list; a free event is
taken and not put into the vector. -/
def retrieveAddressesVector : List PinAddress → List PinAddress × List PinAddress
  | [] => ([], [])
  | event :: queue =>
      if retrieveNumAddresses (event :: queue) = 0 then ([], event :: queue)
      else
        let (addresses, left) := retrieveAddressesVector queue
        match event with
        | .touched address isWritten => (.touched address isWritten :: addresses, left)
        | .malloc address size => (.malloc address size :: addresses, left)
        | .free _ => (addresses, left)

/-- `texasAddMultiToStatePin` on the tool's list: the calls it makes,
and what is left of the list. -/
def WrapperConfig.texasAddMultiToStateQueue (cfg : WrapperConfig) (w : Wrappers) (id : UInt64)
    (queue : List PinAddress) (traceArg : Option Trace) : List Call × List PinAddress :=
  let (addresses, left) := retrieveAddressesVector queue
  ((cfg.texasAddMultiToStatePin w id addresses traceArg).2, left)

end Carmot.Wrapper
