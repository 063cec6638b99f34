import MotionTracking.Proofs.Resting
import MotionTracking.Proofs.Publishing
import MotionTracking.Proofs.DriverReady
import MotionTracking.Proofs.Deadlock
import MotionTracking.ChibiOS.SchedulerKernel
import MotionTracking.Proofs.Stopped
import MotionTracking.Proofs.Snapshot
import MotionTracking.Proofs.Transactions
import MotionTracking.Proofs.ReportText
import MotionTracking.Proofs.Transmission
import MotionTracking.Proofs.QueueFlush
import MotionTracking.Proofs.BufferBounds
import MotionTracking.Proofs.SensorReads
import MotionTracking.Proofs.OneSample
import MotionTracking.Proofs.Scaling
import MotionTracking.Proofs.RangeChange
import MotionTracking.Proofs.Phantom
import MotionTracking.Proofs.LostCommands
import MotionTracking.Proofs.Reporting
import MotionTracking.Proofs.Format
import MotionTracking.Proofs.Commands
