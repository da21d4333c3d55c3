import SoftMC.Common.TwoSlot
import SoftMC.Common.Clocked
import SoftMC.Model.Core
import SoftMC.Dispatch.Sequential
import SoftMC.Dispatch.Backpressure
import SoftMC.Dispatch.Conservation
import SoftMC.Path.Run
import SoftMC.Path.Stream
import SoftMC.Model.Controller
import SoftMC.Path.Capacity
import SoftMC.Maintenance.Buffered
import SoftMC.Model.ReadCapturer
import SoftMC.Maintenance.ReadLock
import SoftMC.Maintenance.Requests
import SoftMC.Maintenance.Direction
import SoftMC.Maintenance.RefreshTime
import SoftMC.Model.PcieApp
import SoftMC.Host.Receive
import SoftMC.Host.Format
import SoftMC.Path.Closing
import SoftMC.Dispatch.WriteData
import SoftMC.Dispatch.ClockEnable
import SoftMC.Dispatch.Direction
import SoftMC.Readback.Bursts
import SoftMC.Readback.Reassembly
import SoftMC.Readback.Sender
import SoftMC.Readback.Framing
import SoftMC.Readback.Reset
import SoftMC.Dispatch.Stage
import SoftMC.Host.Operands
import SoftMC.Host.Sequence
import SoftMC.Host.Retention
import SoftMC.Maintenance.Prescaler
import SoftMC.Readback.Capture
import SoftMC.Readback.Trains
import SoftMC.Dram.Run
import SoftMC.Dram.Retention
import SoftMC.Dram.RowDispatch
import SoftMC.Top.ReadBack
import SoftMC.Dram.Serving
import SoftMC.Top.Memory
import SoftMC.Maintenance.Configured
import SoftMC.Dram.Configured
import SoftMC.Path.Issued
import SoftMC.Top.RowStore
